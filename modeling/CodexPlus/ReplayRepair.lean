/-
CodexPlus/ReplayRepair.lean

`repair_replayed_tool_pairs` of context_manager/normalize.rs: a replayed history
loses the tool calls and outputs that are not part of an adjacent pair.

The source walks the items with an index and keeps one flag and two index sets
beside them.  Here the walk is `segments`, which cuts the items into call blocks
with the output blocks behind them and single items, and the flags stand beside
the items in `Judged`.

`Segment.marked` says which items of a segment stay.  What the repair keeps, what
it reports, when a second repair finds nothing to do and when the result can be
sent over Chat Completions are all read off the marks.
-/
import CodexPlus.ChatGroups
import Mathlib.Data.List.Sort
import Mathlib.Data.List.TakeWhile

namespace CodexPlus

open List

namespace Replay

open CallGroups Chat

/-! ### The repair -/

structure ToolPairRepairReport where
  droppedCalls : List String
  droppedOutputs : List String
  deriving DecidableEq, Repr

def isStandaloneToolOutput : ResponseItem → Bool
  | .functionCallOutput _ none _ _ _ _ => true
  | .toolSearchOutput _ _ _ execution _ _ => execution = "server"
  | _ => false

/-- A call block with the output block behind it, or any other single item. -/
inductive Segment where
  | plain (envelope : ResponseItemEnvelope)
  | block (calls outputs : List ResponseItemEnvelope)
  deriving DecidableEq, Repr

def inCallBlock (e : ResponseItemEnvelope) : Bool :=
  e.item.isToolCallItem || e.item.isAssistantCoalescingItem

def answersOneOf (calls : List ResponseItemEnvelope) (e : ResponseItemEnvelope) : Bool :=
  match e.item.outputCallId with
  | none => false
  | some callId => calls.any fun call => call.item.toolCallId == some callId

/-- The outer loop of the walk; each round takes at least one item. -/
def segmentsFrom : ℕ → List ResponseItemEnvelope → List Segment
  | 0, _ => []
  | _ + 1, [] => []
  | fuel + 1, e :: rest =>
    if e.item.isToolCallItem then
      let calls := e :: rest.takeWhile inCallBlock
      let afterCalls := rest.dropWhile inCallBlock
      .block calls (afterCalls.takeWhile (answersOneOf calls)) ::
        segmentsFrom fuel (afterCalls.dropWhile (answersOneOf calls))
    else .plain e :: segmentsFrom fuel rest

def segments (items : List ResponseItemEnvelope) : List Segment :=
  segmentsFrom items.length items

/-- An item with its `keep` flag, whether its index is in `valid_call_indices` or `valid_outputs`,
and the names pushed to the report for it. The report is sorted in the end, so the order of the
pushes is left out. -/
structure Judged where
  envelope : ResponseItemEnvelope
  keep : Bool
  valid : Bool
  names : List String
  deriving DecidableEq, Repr

namespace Judged

def new (e : ResponseItemEnvelope) : Judged := ⟨e, true, false, []⟩

def accept (j : Judged) : Judged := { j with valid := true }

def drop (j : Judged) (name : String) : Judged :=
  { j with keep := false, names := j.names ++ [name] }

end Judged

def judgeCall (outputs : List ResponseItemEnvelope) (e : ResponseItemEnvelope) : Judged :=
  if e.item.isToolCallItem then
    match e.item.toolCallId with
    | none => (Judged.new e).drop "<missing-id>"
    | some callId =>
      if callId = "" then (Judged.new e).drop "<empty-id>"
      else if outputs.any fun output => output.item.outputCallId == some callId then
        (Judged.new e).accept
      else (Judged.new e).drop callId
  else .new e

/-- `block_valid_calls`. -/
def blockValidCalls (calls outputs : List ResponseItemEnvelope) : List String :=
  ((calls.map (judgeCall outputs)).filter Judged.valid).filterMap (·.envelope.item.toolCallId)

def judgeOutputs (validCalls : List String) :
    (seenOutputs : List String) → List ResponseItemEnvelope → List Judged
  | _, [] => []
  | seenOutputs, e :: rest =>
    match e.item.outputCallId with
    | none => .new e :: judgeOutputs validCalls seenOutputs rest
    | some callId =>
      if callId ∉ validCalls then
        (Judged.new e).drop callId :: judgeOutputs validCalls seenOutputs rest
      else if callId ∈ seenOutputs then
        (Judged.new e).drop callId :: judgeOutputs validCalls seenOutputs rest
      else (Judged.new e).accept :: judgeOutputs validCalls (callId :: seenOutputs) rest

def Segment.judge : Segment → List Judged
  | .plain e => [.new e]
  | .block calls outputs =>
    calls.map (judgeCall outputs) ++ judgeOutputs (blockValidCalls calls outputs) [] outputs

/-- The second pass: outputs that are not the first output in a valid block. -/
def Judged.dropOutput (j : Judged) : Judged :=
  if !j.envelope.item.isToolOutputItem || isStandaloneToolOutput j.envelope.item then j
  else if j.valid then j
  else j.drop (j.envelope.item.outputCallId.getD "<missing-id>")

/-- The third pass: calls that were not paired with an output in their block. -/
def Judged.dropCall (j : Judged) : Judged :=
  if !j.envelope.item.isToolCallItem then j
  else if j.valid then j
  else j.drop ((j.envelope.item.toolCallId.filter (· ≠ "")).getD "<missing-id>")

/-- `Vec::dedup`: of equal neighbours one stays. -/
def dedup : List String → List String
  | [] => []
  | [name] => [name]
  | name :: next :: rest =>
    if name = next then dedup (next :: rest) else name :: dedup (next :: rest)

def reportNames (judged : List Judged) (kind : ResponseItem → Bool) : List String :=
  dedup (((judged.filter fun j => kind j.envelope.item).flatMap Judged.names).insertionSort (· ≤ ·))

def judgeAll (items : List ResponseItemEnvelope) : List Judged :=
  ((segments items).flatMap Segment.judge).map fun j => j.dropOutput.dropCall

def repairReplayedToolPairs (items : List ResponseItemEnvelope) :
    List ResponseItemEnvelope × ToolPairRepairReport :=
  let judged := judgeAll items
  ((judged.filter Judged.keep).map Judged.envelope,
    ⟨reportNames judged ResponseItem.isToolCallItem, reportNames judged ResponseItem.isToolOutputItem⟩)

/-! ### What stays -/

def Segment.items : Segment → List ResponseItemEnvelope
  | .plain e => [e]
  | .block calls outputs => calls ++ outputs

/-- The call has a name, and an output in the output block bears it. -/
def isAnswered (outputs : List ResponseItemEnvelope) (e : ResponseItemEnvelope) : Bool :=
  e.item.toolCallId.any fun callId =>
    callId ≠ "" ∧ outputs.any fun output => output.item.outputCallId == some callId

/-- The ids of the answered calls of a block. -/
def answeredIds (calls outputs : List ResponseItemEnvelope) : List String :=
  (calls.filter (isAnswered outputs)).filterMap (·.item.toolCallId)

/-- The first output for each answered call. -/
def markOutputs (answered : List String) :
    (seen : List String) → List ResponseItemEnvelope → List (ResponseItemEnvelope × Bool)
  | _, [] => []
  | seen, e :: rest =>
    (e, e.item.outputCallId.any fun callId => callId ∈ answered ∧ callId ∉ seen) ::
      markOutputs answered (e.item.outputCallId.toList ++ seen) rest

/-- The items of a segment, each with whether it stays. -/
def Segment.marked : Segment → List (ResponseItemEnvelope × Bool)
  | .plain e => [(e, !e.item.isToolOutputItem || isStandaloneToolOutput e.item)]
  | .block calls outputs =>
    calls.map (fun e => (e, !e.item.isToolCallItem || isAnswered outputs e)) ++
      markOutputs (answeredIds calls outputs) [] outputs

def Segment.kept (s : Segment) : List ResponseItemEnvelope :=
  (s.marked.filter (·.2)).map (·.1)

def Segment.dropped (s : Segment) : List ResponseItemEnvelope :=
  (s.marked.filter (!·.2)).map (·.1)

/-- The name of a call in the report. -/
def reportedCall (item : ResponseItem) : String :=
  match item.toolCallId with
  | none => "<missing-id>"
  | some callId => if callId = "" then "<empty-id>" else callId

def reportedOutput (item : ResponseItem) : String := item.outputCallId.getD "<missing-id>"

/-- The next item kept behind an output block is not one more output for a kept call of the block. -/
def Separate : List Segment → Prop
  | [] => True
  | .plain _ :: after => Separate after
  | .block calls outputs :: after =>
    (∀ e ∈ (after.flatMap Segment.kept).head?, ∀ callId ∈ answeredIds calls outputs,
      e.item.outputCallId ≠ some callId) ∧ Separate after

/-- The kept calls of a block can stand in one Chat message, and their outputs have a Chat form. -/
def Segment.Sendable : Segment → Prop
  | .plain _ => True
  | .block calls outputs => (answeredIds calls outputs).Nodup ∧
      ∀ x ∈ markOutputs (answeredIds calls outputs) [] outputs, x.2 = true →
        wireToken x.1.item = .output (x.1.item.outputCallId.getD "")

/-! ### The walk -/

open Judged

variable {item : ResponseItem} {segs : List Segment} {j : Judged} {callId : String}

theorem isToolCallItem_of_toolCallId (h : item.toolCallId = some callId) : item.isToolCallItem := by
  cases item <;> first | rfl | cases h

theorem isToolOutputItem_of_outputCallId
    (h : item.outputCallId = some callId) : item.isToolOutputItem := by
  cases item <;> first | rfl | cases h

variable {e : ResponseItemEnvelope}

theorem not_inCallBlock_of_output (h : e.item.isToolOutputItem) : inCallBlock e = false := by
  rcases e with ⟨item, metadata⟩
  cases item <;> first | rfl | cases h

theorem not_isToolOutputItem_of_inCallBlock (h : inCallBlock e) :
    e.item.isToolOutputItem = false := by
  by_contra hne
  rw [not_inCallBlock_of_output (by simpa using hne)] at h
  cases h

variable {calls : List ResponseItemEnvelope}

theorem exists_outputCallId_of_answers
    (h : answersOneOf calls e) : ∃ callId, e.item.outputCallId = some callId := by
  rw [answersOneOf] at h
  split at h
  · cases h
  · next callId hid => exact ⟨callId, hid⟩

abbrev flat (segs : List Segment) : List ResponseItemEnvelope := segs.flatMap Segment.items

/-- What the walk says of its segments: each block goes as far as it can. -/
inductive Segmented : List Segment → Prop
  | nil : Segmented []
  | plain {e : ResponseItemEnvelope} {after : List Segment}
      (hcall : e.item.isToolCallItem = false) (hafter : Segmented after) :
      Segmented (.plain e :: after)
  | block {e : ResponseItemEnvelope} {said outputs : List ResponseItemEnvelope}
      {after : List Segment} (hcall : e.item.isToolCallItem = true)
      (hsaid : ∀ x ∈ said, inCallBlock x = true)
      (hstop : ∀ x ∈ (outputs ++ flat after).head?, inCallBlock x = false)
      (houtputs : ∀ x ∈ outputs, answersOneOf (e :: said) x = true)
      (hend : ∀ x ∈ (flat after).head?, answersOneOf (e :: said) x = false)
      (hafter : Segmented after) : Segmented (.block (e :: said) outputs :: after)

/-- What the items of a segment are. -/
def Segment.Formed : Segment → Prop
  | .plain e => e.item.isToolCallItem = false
  | .block calls outputs => (∀ x ∈ calls, inCallBlock x) ∧
      ∀ o ∈ outputs, ∃ callId, o.item.outputCallId = some callId

theorem inCallBlock_of_call (h : e.item.isToolCallItem) : inCallBlock e := by
  rw [inCallBlock, h, Bool.true_or]

theorem Segmented.formed (h : Segmented segs) : ∀ s ∈ segs, s.Formed := by
  induction h with
  | nil => exact forall_mem_nil _
  | plain hcall _ ih => exact forall_mem_cons.mpr ⟨hcall, ih⟩
  | block hcall hsaid _ houtputs _ _ ih =>
    refine forall_mem_cons.mpr ⟨⟨?_, fun o ho => ?_⟩, ih⟩
    · exact forall_mem_cons.mpr ⟨inCallBlock_of_call hcall, hsaid⟩
    · exact exists_outputCallId_of_answers (houtputs o ho)

variable {items : List ResponseItemEnvelope} {p : ResponseItemEnvelope → Bool}

theorem not_of_mem_head?_dropWhile {x : ResponseItemEnvelope}
    (h : x ∈ (items.dropWhile p).head?) : p x = false := by
  have hnot := head?_dropWhile_not p items
  rw [Option.mem_def.mp h] at hnot
  simpa using hnot

theorem segmentsFrom_spec {fuel : ℕ} (hfuel : items.length ≤ fuel) :
    flat (segmentsFrom fuel items) = items ∧ Segmented (segmentsFrom fuel items) := by
  induction fuel generalizing items with
  | zero =>
    obtain rfl := eq_nil_of_length_eq_zero (Nat.le_zero.mp hfuel)
    exact ⟨rfl, .nil⟩
  | succ fuel ih =>
    rcases items with _ | ⟨e, rest⟩
    · exact ⟨rfl, .nil⟩
    have hrest : rest.length ≤ fuel := Nat.le_of_succ_le_succ hfuel
    rw [segmentsFrom]
    by_cases hcall : e.item.isToolCallItem = true
    · rw [if_pos hcall]
      -- the two blocks and what is behind them make up the items
      have hlen : ((rest.dropWhile inCallBlock).dropWhile
          (answersOneOf (e :: rest.takeWhile inCallBlock))).length ≤ fuel :=
        ((dropWhile_sublist _).trans (dropWhile_sublist _)).length_le.trans hrest
      obtain ⟨hflat, hsegs⟩ := ih hlen
      have hback : (rest.dropWhile inCallBlock).takeWhile
            (answersOneOf (e :: rest.takeWhile inCallBlock)) ++
          flat (segmentsFrom fuel ((rest.dropWhile inCallBlock).dropWhile
            (answersOneOf (e :: rest.takeWhile inCallBlock)))) = rest.dropWhile inCallBlock := by
        rw [hflat, takeWhile_append_dropWhile]
      constructor
      · show e :: rest.takeWhile inCallBlock ++ _ ++ flat _ = e :: rest
        rw [append_assoc, hback, cons_append, takeWhile_append_dropWhile]
      · refine .block hcall (fun x hx => mem_takeWhile_imp hx) ?_
          (fun x hx => mem_takeWhile_imp hx) ?_ hsegs
        · rw [hback]
          exact fun x hx => not_of_mem_head?_dropWhile hx
        · rw [hflat]
          exact fun x hx => not_of_mem_head?_dropWhile hx
    · rw [if_neg hcall]
      obtain ⟨hflat, hsegs⟩ := ih hrest
      exact ⟨congrArg (e :: ·) hflat, .plain (Bool.eq_false_iff.mpr hcall) hsegs⟩

variable (items)

theorem flat_segments : flat (segments items) = items :=
  (segmentsFrom_spec le_rfl).1

theorem segmented_segments : Segmented (segments items) :=
  (segmentsFrom_spec le_rfl).2

theorem span_append {as bs : List ResponseItemEnvelope}
    (has : ∀ x ∈ as, p x) (hbs : ∀ x ∈ bs.head?, p x = false) :
    (as ++ bs).takeWhile p = as ∧ (as ++ bs).dropWhile p = bs := by
  rw [takeWhile_append_of_pos has, dropWhile_append_of_pos has]
  rcases bs with _ | ⟨b, bs⟩
  · exact ⟨append_nil _, rfl⟩
  · have hb : ¬ p b = true := by simpa using hbs b rfl
    rw [takeWhile_cons_of_neg hb, dropWhile_cons_of_neg hb]
    exact ⟨append_nil _, rfl⟩

/-- The segments of a list are the only ones that go as far as they can. -/
theorem Segmented.segmentsFrom_eq (h : Segmented segs) {fuel : ℕ}
    (hfuel : (flat segs).length ≤ fuel) : segmentsFrom fuel (flat segs) = segs := by
  induction h generalizing fuel with
  | nil => rcases fuel with _ | fuel <;> rfl
  | @plain e after hcall _ ih =>
    rcases fuel with _ | fuel
    · exact absurd hfuel (Nat.not_succ_le_zero _)
    · show segmentsFrom (fuel + 1) (e :: flat after) = _
      rw [segmentsFrom, if_neg (by simp [hcall]), ih (Nat.le_of_succ_le_succ hfuel)]
  | @block e said outputs after hcall hsaid hstop houtputs hend _ ih =>
    have hflat : flat (.block (e :: said) outputs :: after)
        = e :: (said ++ (outputs ++ flat after)) := by
      simp [flat, Segment.items]
    rw [hflat] at hfuel ⊢
    rcases fuel with _ | fuel
    · exact absurd hfuel (Nat.not_succ_le_zero _)
    obtain ⟨htake, hdrop⟩ := span_append hsaid hstop
    obtain ⟨htake', hdrop'⟩ := span_append houtputs hend
    have hlen : (flat after).length ≤ fuel := by
      simp only [length_cons, length_append] at hfuel
      omega
    rw [segmentsFrom, if_pos hcall]
    dsimp only
    rw [htake, hdrop, htake', hdrop', ih hlen]

theorem Segmented.segments_eq (h : Segmented segs) : segments (flat segs) = segs :=
  h.segmentsFrom_eq le_rfl

/-! ### The verdicts -/

/-- What holds of an item once the three passes are over. -/
structure Judged.Settled (j : Judged) : Prop where
  silent : j.keep = true → j.names = []
  call : j.keep = false → j.envelope.item.isToolCallItem = true →
    reportedCall j.envelope.item ∈ j.names ∧ ∀ name ∈ j.names, name = reportedCall j.envelope.item ∨
      name = "<missing-id>" ∧ j.envelope.item.toolCallId = some ""
  output : j.keep = false → j.envelope.item.isToolOutputItem = true →
    j.names ≠ [] ∧ ∀ name ∈ j.names, name = reportedOutput j.envelope.item

def Judged.finish (j : Judged) : Judged := j.dropOutput.dropCall

def Judged.mark (j : Judged) : ResponseItemEnvelope × Bool := (j.envelope, j.keep)

theorem not_isToolOutputItem_of_call (h : item.isToolCallItem) : item.isToolOutputItem = false := by
  cases item <;> first | rfl | cases h

theorem not_isToolCallItem_of_output (h : item.isToolOutputItem) : item.isToolCallItem = false := by
  cases item <;> first | rfl | cases h

variable {outputs : List ResponseItemEnvelope}

theorem isAnswered_eq (h : e.item.toolCallId = some callId) :
    isAnswered outputs e = decide (callId ≠ "" ∧
      (outputs.any fun output => output.item.outputCallId == some callId)) := by
  rw [isAnswered, h, Option.any_some]

theorem toolCallId_of_isAnswered
    (h : isAnswered outputs e) : ∃ callId, e.item.toolCallId = some callId :=
  Option.isSome_iff_exists.mp (Option.isSome_of_any h)

theorem isToolCallItem_of_isAnswered (h : isAnswered outputs e) : e.item.isToolCallItem :=
  (toolCallId_of_isAnswered h).elim fun _ hid => isToolCallItem_of_toolCallId hid

theorem Judged.finish_of_call (h : j.envelope.item.isToolCallItem) :
    j.finish = if j.valid then j
      else j.drop ((j.envelope.item.toolCallId.filter (· ≠ "")).getD "<missing-id>") := by
  rw [finish, dropOutput, if_pos (by simp [not_isToolOutputItem_of_call h]), dropCall,
    if_neg (by simp [h])]

theorem Judged.finish_of_other (h : j.envelope.item.isToolCallItem = false) :
    j.finish = if !j.envelope.item.isToolOutputItem || isStandaloneToolOutput j.envelope.item then j
      else if j.valid then j
      else j.drop (reportedOutput j.envelope.item) := by
  have henvelope : j.dropOutput.envelope = j.envelope := by
    rw [dropOutput]
    split
    · rfl
    · split <;> rfl
  rw [finish, dropCall, if_pos (by simp [henvelope, h])]
  rfl

theorem settled_of_keep (hkeep : j.keep) (hnames : j.names = []) : j.Settled :=
  ⟨fun _ => hnames, fun h => absurd h (by simp [hkeep]), fun h => absurd h (by simp [hkeep])⟩

variable {name : String}

theorem Judged.Settled.not_keep (h : j.Settled) (hname : name ∈ j.names) : j.keep = false := by
  by_contra hkeep
  rw [h.silent (by simpa using hkeep)] at hname
  cases hname

variable (outputs)

theorem judgeCall_of_call (h : e.item.isToolCallItem) :
    judgeCall outputs e = if isAnswered outputs e then (Judged.new e).accept
      else (Judged.new e).drop (reportedCall e.item) := by
  rw [judgeCall, if_pos h]
  rcases hid : e.item.toolCallId with _ | callId
  · simp [isAnswered, reportedCall, hid]
  · rw [isAnswered_eq hid]
    by_cases hempty : callId = "" <;> simp [hempty, reportedCall, hid]

theorem judgeCall_of_said (h : e.item.isToolCallItem = false) : judgeCall outputs e = .new e := by
  rw [judgeCall, if_neg (by simp [h])]

variable (item)

/-- The third pass reports a call without a usable id as missing. -/
theorem third_name : (item.toolCallId.filter (· ≠ "")).getD "<missing-id>" = reportedCall item ∨
      (item.toolCallId.filter (· ≠ "")).getD "<missing-id>" = "<missing-id>" ∧
        item.toolCallId = some "" := by
  rcases hid : item.toolCallId with _ | callId
  · exact .inl (by simp [reportedCall, hid])
  · by_cases hempty : callId = ""
    · exact .inr (by simp [hempty, Option.filter])
    · exact .inl (by simp [reportedCall, hid, hempty, Option.filter])

theorem finish_of_said (hcall : e.item.isToolCallItem = false)
    (hpass : (!e.item.isToolOutputItem || isStandaloneToolOutput e.item)) :
    (Judged.new e).finish = .new e := by
  rw [finish_of_other hcall]
  exact if_pos hpass

/-- An item of a call block. -/
theorem finish_judgeCall (h : inCallBlock e) :
    (judgeCall outputs e).finish.mark = (e, !e.item.isToolCallItem || isAnswered outputs e) ∧
      (judgeCall outputs e).finish.Settled := by
  by_cases hcall : e.item.isToolCallItem = true
  swap
  · -- what is said between the calls
    have houtput := not_isToolOutputItem_of_inCallBlock h
    have hsaid : e.item.isToolCallItem = false := by simpa using hcall
    rw [judgeCall_of_said outputs hsaid, finish_of_said hsaid (by simp [houtput]), hsaid]
    exact ⟨rfl, settled_of_keep rfl rfl⟩
  rw [judgeCall_of_call outputs hcall, hcall, Bool.not_true]
  by_cases hanswered : isAnswered outputs e = true
  · rw [if_pos hanswered, finish_of_call hcall, hanswered]
    exact ⟨rfl, settled_of_keep rfl rfl⟩
  rw [if_neg hanswered, finish_of_call hcall, Bool.eq_false_iff.mpr hanswered]
  refine ⟨rfl, fun hkeep => absurd hkeep Bool.false_ne_true, fun _ _ => ?_, fun _ houtput => ?_⟩
  · show reportedCall e.item ∈ [reportedCall e.item, _] ∧ ∀ name ∈ [reportedCall e.item, _], _
    refine ⟨mem_cons_self, ?_⟩
    simp only [mem_cons, not_mem_nil, or_false, forall_eq_or_imp, forall_eq]
    exact ⟨.inl rfl, third_name e.item⟩
  · have hnot := not_isToolOutputItem_of_call hcall
    exact absurd (houtput.symm.trans hnot) (by simp)

variable {answered seen : List String} {outputs}

theorem settled_of_output (houtput : j.envelope.item.isToolOutputItem) (hkeep : j.keep = false)
    (hne : j.names ≠ []) (hnames : ∀ name ∈ j.names, name = reportedOutput j.envelope.item) :
    j.Settled :=
  ⟨fun h => absurd h (by simp [hkeep]),
    fun _ h => absurd h (by simp [not_isToolCallItem_of_output houtput]), fun _ _ => ⟨hne, hnames⟩⟩

/-- An output dropped by the walk, whatever the second pass adds to the report. -/
theorem finish_drop (houtput : e.item.isToolOutputItem) :
    ((Judged.new e).drop (reportedOutput e.item)).finish.mark = (e, false) ∧
      ((Judged.new e).drop (reportedOutput e.item)).finish.Settled := by
  rw [finish_of_other (not_isToolCallItem_of_output houtput)]
  split
  · exact ⟨rfl, settled_of_output houtput rfl (cons_ne_nil _ _) fun _ => mem_singleton.mp⟩
  · refine ⟨rfl, settled_of_output houtput rfl (cons_ne_nil _ _) ?_⟩
    show ∀ name ∈ [reportedOutput e.item, reportedOutput e.item], name = reportedOutput e.item
    simp

theorem judgeOutputs_cons (h : e.item.outputCallId = some callId) :
    judgeOutputs answered seen (e :: outputs) = if callId ∈ answered ∧ callId ∉ seen then
        (Judged.new e).accept :: judgeOutputs answered (callId :: seen) outputs
      else (Judged.new e).drop callId :: judgeOutputs answered seen outputs := by
  rw [judgeOutputs, h]
  by_cases hmem : callId ∈ answered <;> by_cases hseen : callId ∈ seen <;> simp [hmem, hseen]

/-- The items of an output block. The walk has looked at fewer ids than `markOutputs`, but at all
that belong to a valid call. -/
theorem finish_judgeOutputs {seen' : List String}
    (hseen : ∀ callId ∈ answered, callId ∈ seen ↔ callId ∈ seen')
    (h : ∀ e ∈ outputs, ∃ callId, e.item.outputCallId = some callId) :
    ((judgeOutputs answered seen outputs).map fun j => j.finish.mark)
        = markOutputs answered seen' outputs ∧
      ∀ j ∈ judgeOutputs answered seen outputs, j.finish.Settled := by
  induction outputs generalizing seen seen' with
  | nil => exact ⟨rfl, fun j hj => absurd hj not_mem_nil⟩
  | cons e _ ih =>
    obtain ⟨⟨callId, hid⟩, hrest⟩ := forall_mem_cons.mp h
    have houtput := isToolOutputItem_of_outputCallId hid
    rw [judgeOutputs_cons hid, markOutputs, hid]
    split
    · next hfirst =>
      have haccept : (Judged.new e).accept.finish = (Judged.new e).accept := by
        rw [finish_of_other (not_isToolCallItem_of_output houtput)]
        split
        · rfl
        · rfl
      have hfresh : callId ∉ seen' := fun hsame => hfirst.2 ((hseen callId hfirst.1).mpr hsame)
      have hnext : ∀ other ∈ answered,
          other ∈ callId :: seen ↔ other ∈ (some callId).toList ++ seen' := by
        intro other hother
        simp [hseen other hother]
      obtain ⟨hmarks, hall⟩ := ih hnext hrest
      refine ⟨?_, forall_mem_cons.mpr ⟨?_, hall⟩⟩
      · rw [map_cons, haccept, hmarks]
        simp [hfirst.1, hfresh, mark, accept, Judged.new]
      · rw [haccept]
        exact settled_of_keep rfl rfl
    · next hnot =>
      -- no valid call, or one that has its output
      have hnext : ∀ other ∈ answered, other ∈ seen ↔ other ∈ (some callId).toList ++ seen' := by
        intro other hother
        by_cases heq : other = callId
        · subst heq
          simpa using not_not.mp (not_and.mp hnot hother)
        · simp [heq, hseen other hother]
      obtain ⟨hmarks, hall⟩ := ih hnext hrest
      have hdrop := finish_drop houtput
      rw [reportedOutput, hid, Option.getD_some] at hdrop
      refine ⟨?_, forall_mem_cons.mpr ⟨hdrop.2, hall⟩⟩
      rw [map_cons, hdrop.1, hmarks]
      have hflag : callId ∈ answered → callId ∈ seen' := fun hmem =>
        (hseen callId hmem).mp (not_not.mp (not_and.mp hnot hmem))
      simpa using hflag

theorem blockValidCalls_eq (calls outputs : List ResponseItemEnvelope) :
    blockValidCalls calls outputs = answeredIds calls outputs := by
  have hjudge : ∀ e, (judgeCall outputs e).envelope = e ∧
      (judgeCall outputs e).valid = isAnswered outputs e := by
    intro e
    by_cases hcall : e.item.isToolCallItem = true
    · rw [judgeCall_of_call outputs hcall]
      split
      · next hanswered => exact ⟨rfl, hanswered.symm⟩
      · next hanswered => exact ⟨rfl, (Bool.eq_false_iff.mpr hanswered).symm⟩
    · rw [judgeCall_of_said outputs (by simpa using hcall)]
      exact ⟨rfl, (Bool.eq_false_iff.mpr fun h => hcall (isToolCallItem_of_isAnswered h)).symm⟩
  rw [blockValidCalls, filter_map, filterMap_map]
  have hfilter : calls.filter (valid ∘ judgeCall outputs) = calls.filter (isAnswered outputs) :=
    filter_congr fun e _ => (hjudge e).2
  rw [hfilter]
  refine filterMap_congr fun e _ => ?_
  show (judgeCall outputs e).envelope.item.toolCallId = _
  rw [(hjudge e).1]

/-- A single item between the blocks. -/
theorem finish_plain (h : e.item.isToolCallItem = false) :
    (Judged.new e).finish.mark
        = (e, !e.item.isToolOutputItem || isStandaloneToolOutput e.item) ∧
      (Judged.new e).finish.Settled := by
  by_cases hpass : (!e.item.isToolOutputItem || isStandaloneToolOutput e.item) = true
  · rw [finish_of_said h hpass, hpass]
    exact ⟨rfl, settled_of_keep rfl rfl⟩
  · have hfinish : (Judged.new e).finish = (Judged.new e).drop (reportedOutput e.item) := by
      rw [finish_of_other h]
      exact (if_neg hpass).trans (if_neg (by simp [Judged.new]))
    have houtput : e.item.isToolOutputItem = true := by simp_all
    rw [hfinish, Bool.eq_false_iff.mpr hpass]
    exact ⟨rfl, settled_of_output houtput rfl (cons_ne_nil _ _) fun _ => mem_singleton.mp⟩

variable {s : Segment}

/-- The three passes leave on every item the mark of its segment. -/
theorem Segment.Formed.judge_spec (h : s.Formed) :
    (s.judge.map fun j => j.finish.mark) = s.marked ∧ ∀ j ∈ s.judge, j.finish.Settled := by
  cases s with
  | plain e =>
    obtain ⟨hmark, hsettled⟩ := finish_plain h
    exact ⟨congrArg ([·]) hmark, forall_mem_singleton.mpr hsettled⟩
  | block calls outputs =>
    obtain ⟨hblock, hnamed⟩ := h
    have hjudged := finish_judgeOutputs
      (fun callId (_ : callId ∈ blockValidCalls calls outputs) =>
        (Iff.rfl : callId ∈ [] ↔ callId ∈ [])) hnamed
    constructor
    · rw [Segment.judge, map_append, hjudged.1, map_map, Segment.marked, blockValidCalls_eq]
      have hcalls : calls.map ((fun j => j.finish.mark) ∘ judgeCall outputs)
          = calls.map fun x => (x, !x.item.isToolCallItem || isAnswered outputs x) :=
        map_congr_left fun x hx => (finish_judgeCall outputs (hblock x hx)).1
      rw [hcalls]
    · refine forall_mem_append.mpr ⟨fun j hj => ?_, hjudged.2⟩
      obtain ⟨x, hx, rfl⟩ := mem_map.mp hj
      exact (finish_judgeCall outputs (hblock x hx)).2

theorem judgeAll_eq :
    judgeAll items = ((segments items).flatMap Segment.judge).map finish := rfl

theorem map_mark_judgeAll :
    (judgeAll items).map mark = (segments items).flatMap Segment.marked := by
  rw [judgeAll_eq, map_map, map_flatMap]
  exact flatMap_congr fun s hs => ((segmented_segments items).formed s hs).judge_spec.1

variable {items}

theorem settled_of_mem_judgeAll (h : j ∈ judgeAll items) : j.Settled := by
  obtain ⟨j, hj, rfl⟩ := mem_map.mp h
  obtain ⟨s, hs, hj⟩ := mem_flatMap.mp hj
  exact ((segmented_segments items).formed s hs).judge_spec.2 j hj

/-! ### What the repair returns -/

theorem fst_repair_eq_marked (items : List ResponseItemEnvelope) :
    (repairReplayedToolPairs items).1
      = (((segments items).flatMap Segment.marked).filter (·.2)).map (·.1) := by
  rw [← map_mark_judgeAll, filter_map, map_map]
  rfl

theorem fst_repair (items : List ResponseItemEnvelope) :
    (repairReplayedToolPairs items).1 = (segments items).flatMap Segment.kept := by
  rw [fst_repair_eq_marked, filter_flatMap, map_flatMap]
  rfl

theorem map_fst_markOutputs (answered seen : List String) (outputs : List ResponseItemEnvelope) :
    (markOutputs answered seen outputs).map (·.1) = outputs := by
  induction outputs generalizing seen with
  | nil => rfl
  | cons _ _ ih => rw [markOutputs, map_cons, ih]

theorem map_fst_marked (s : Segment) : s.marked.map (·.1) = s.items := by
  cases s with
  | plain => rfl
  | block =>
    rw [Segment.marked, map_append, map_fst_markOutputs, Segment.items]
    simp [Function.comp_def]

theorem map_fst_segments (items : List ResponseItemEnvelope) :
    ((segments items).flatMap Segment.marked).map (·.1) = items := by
  rw [map_flatMap]
  simp only [map_fst_marked]
  exact flat_segments items

/-- An item that is neither a call nor an output. -/
def isNonTool : Bool := !item.isToolCallItem && !item.isToolOutputItem


theorem Segment.Formed.isTool_of_dropped (h : s.Formed)
    {x : ResponseItemEnvelope × Bool} (hx : x ∈ s.marked) (hdrop : x.2 = false) :
    isNonTool x.1.item = false := by
  cases s with
  | plain =>
    obtain rfl := mem_singleton.mp hx
    simp only [Bool.or_eq_false_iff, Bool.not_eq_false'] at hdrop
    simp [isNonTool, hdrop.1]
  | block calls outputs =>
    rcases mem_append.mp hx with hx | hx
    · obtain ⟨y, hy, rfl⟩ := mem_map.mp hx
      simp only [Bool.or_eq_false_iff, Bool.not_eq_false'] at hdrop
      simp [isNonTool, hdrop.1]
    · have hmem : x.1 ∈ outputs := by
        rw [← map_fst_markOutputs (answeredIds calls outputs) [] outputs]
        exact mem_map_of_mem hx
      obtain ⟨callId, hid⟩ := h.2 x.1 hmem
      simp [isNonTool, isToolOutputItem_of_outputCallId hid]

theorem filter_nonTool_repair (items : List ResponseItemEnvelope) :
    (repairReplayedToolPairs items).1.filter (fun e => isNonTool e.item)
      = items.filter fun e => isNonTool e.item := by
  rw [fst_repair_eq_marked]
  conv_rhs => rw [← map_fst_segments items]
  rw [filter_map, filter_map, filter_filter]
  congr 1
  refine filter_congr fun x hx => ?_
  rcases hflag : x.2 with _ | _
  · obtain ⟨s, hs, hx⟩ := mem_flatMap.mp hx
    simp [((segmented_segments items).formed s hs).isTool_of_dropped hx hflag]
  · simp

/-! ### What the repair reports -/

theorem mem_dedup {names : List String} : name ∈ dedup names ↔ name ∈ names := by
  induction names with
  | nil => rfl
  | cons _ rest ih =>
    rcases rest with _ | ⟨next, rest⟩
    · rfl
    rw [dedup]
    split
    · next heq =>
      rw [ih, heq]
      simp
    · exact (mem_cons.trans (or_congr_right ih)).trans mem_cons.symm

theorem mem_reportNames {judged : List Judged} {kind : ResponseItem → Bool} :
    name ∈ reportNames judged kind ↔
      ∃ j ∈ judged, kind j.envelope.item ∧ name ∈ j.names := by
  rw [reportNames, mem_dedup, (perm_insertionSort _ _).mem_iff]
  simp only [mem_flatMap, mem_filter, and_assoc]

/-- The dropped items are those whose flag the passes have cleared. -/
theorem mem_dropped_iff :
    (∃ s ∈ segments items, e ∈ s.dropped) ↔
      ∃ j ∈ judgeAll items, j.envelope = e ∧ j.keep = false := by
  have hmark : (∃ s ∈ segments items, e ∈ s.dropped) ↔
      (e, false) ∈ (judgeAll items).map mark := by
    rw [map_mark_judgeAll, mem_flatMap]
    refine exists_congr fun s => and_congr_right fun _ => ?_
    rw [Segment.dropped]
    simp
  rw [hmark, mem_map]
  simp [mark]

section Report

variable {items : List ResponseItemEnvelope}

theorem reportedCall_mem (hs : s ∈ segments items)
    (he : e ∈ s.dropped) (hcall : e.item.isToolCallItem) :
    reportedCall e.item ∈ (repairReplayedToolPairs items).2.droppedCalls := by
  obtain ⟨j, hj, rfl, hdrop⟩ := mem_dropped_iff.mp ⟨s, hs, he⟩
  exact mem_reportNames.mpr ⟨j, hj, hcall, ((settled_of_mem_judgeAll hj).call hdrop hcall).1⟩

theorem exists_dropped {kind : ResponseItem → Bool} (h : name ∈ reportNames (judgeAll items) kind) :
    ∃ s ∈ segments items, ∃ j : Judged, j.envelope ∈ s.dropped ∧ kind j.envelope.item ∧
      name ∈ j.names ∧ j.keep = false ∧ j.Settled := by
  obtain ⟨j, hj, hkind, hname⟩ := mem_reportNames.mp h
  have hsettled := settled_of_mem_judgeAll hj
  have hdrop := hsettled.not_keep hname
  obtain ⟨s, hs, he⟩ := mem_dropped_iff.mpr ⟨j, hj, rfl, hdrop⟩
  exact ⟨s, hs, j, he, hkind, hname, hdrop, hsettled⟩

theorem exists_of_mem_droppedCalls (h : name ∈ (repairReplayedToolPairs items).2.droppedCalls) :
    ∃ s ∈ segments items, ∃ e ∈ s.dropped, e.item.isToolCallItem ∧
      (name = reportedCall e.item ∨ name = "<missing-id>" ∧ e.item.toolCallId = some "") := by
  obtain ⟨s, hs, j, he, hcall, hname, hdrop, hsettled⟩ := exists_dropped h
  exact ⟨s, hs, j.envelope, he, hcall, (hsettled.call hdrop hcall).2 name hname⟩

theorem mem_droppedOutputs_iff :
    name ∈ (repairReplayedToolPairs items).2.droppedOutputs ↔
      ∃ s ∈ segments items, ∃ e ∈ s.dropped, e.item.isToolOutputItem ∧
        name = reportedOutput e.item := by
  constructor
  · intro h
    obtain ⟨s, hs, j, he, houtput, hname, hdrop, hsettled⟩ := exists_dropped h
    exact ⟨s, hs, j.envelope, he, houtput, (hsettled.output hdrop houtput).2 name hname⟩
  · rintro ⟨s, hs, e, he, houtput, rfl⟩
    obtain ⟨j, hj, rfl, hdrop⟩ := mem_dropped_iff.mp ⟨s, hs, he⟩
    obtain ⟨hne, hnames⟩ := (settled_of_mem_judgeAll hj).output hdrop houtput
    obtain ⟨name, hname⟩ := exists_mem_of_ne_nil _ hne
    exact mem_reportNames.mpr ⟨j, hj, houtput, hnames name hname ▸ hname⟩

end Report

/-! ### A kept block -/

section Block

variable {calls outputs : List ResponseItemEnvelope}

def keptCalls (calls outputs : List ResponseItemEnvelope) : List ResponseItemEnvelope :=
  calls.filter fun e => !e.item.isToolCallItem || isAnswered outputs e

def keptOutputs (calls outputs : List ResponseItemEnvelope) : List ResponseItemEnvelope :=
  ((markOutputs (answeredIds calls outputs) [] outputs).filter (·.2)).map (·.1)

theorem kept_block : (Segment.block calls outputs).kept
    = keptCalls calls outputs ++ keptOutputs calls outputs := by
  rw [Segment.kept, Segment.marked, filter_append, map_append, filter_map, map_map]
  show ((calls.filter _).map fun e => e) ++ _ = _
  rw [map_id']
  rfl

theorem mem_answeredIds_iff :
    callId ∈ answeredIds calls outputs ↔ (∃ e ∈ calls, e.item.toolCallId = some callId) ∧
      callId ≠ "" ∧ ∃ o ∈ outputs, o.item.outputCallId = some callId := by
  rw [answeredIds, mem_filterMap]
  constructor
  · rintro ⟨e, he, hid⟩
    obtain ⟨he, hanswered⟩ := mem_filter.mp he
    rw [isAnswered_eq hid, decide_eq_true_eq, any_eq_true] at hanswered
    obtain ⟨hne, o, ho, hoid⟩ := hanswered
    exact ⟨⟨e, he, hid⟩, hne, o, ho, by simpa using hoid⟩
  · rintro ⟨⟨e, he, hid⟩, hne, o, ho, hoid⟩
    refine ⟨e, mem_filter.mpr ⟨he, ?_⟩, hid⟩
    rw [isAnswered_eq hid, decide_eq_true_eq, any_eq_true]
    exact ⟨hne, o, ho, by simpa using hoid⟩

theorem toolCallId_of_said {item : ResponseItem} (h : item.isToolCallItem = false) :
    item.toolCallId = none := by
  rcases hid : item.toolCallId with _ | callId
  · rfl
  · exact absurd (isToolCallItem_of_toolCallId hid) (by simp [h])

theorem answeredIds_eq (calls outputs : List ResponseItemEnvelope) :
    answeredIds calls outputs = (keptCalls calls outputs).filterMap (·.item.toolCallId) := by
  rw [answeredIds, keptCalls]
  induction calls with
  | nil => rfl
  | cons e _ ih =>
    by_cases hcall : e.item.isToolCallItem = true
    · simp only [filter_cons, hcall, Bool.not_true, Bool.false_or]
      split
      · rw [filterMap_cons, filterMap_cons, ih]
      · exact ih
    · have hsaid : e.item.isToolCallItem = false := by simpa using hcall
      have hanswered : ¬ isAnswered outputs e = true := fun h =>
        hcall (isToolCallItem_of_isAnswered h)
      rw [filter_cons_of_neg hanswered, filter_cons_of_pos (by simp [hsaid]),
        filterMap_cons, toolCallId_of_said hsaid, ih]

/-- The marked outputs: one for each answered id that is among the outputs and not seen before. -/
theorem markOutputs_ids (answered seen : List String) (outputs : List ResponseItemEnvelope) :
    (((markOutputs answered seen outputs).filter (·.2)).filterMap (·.1.item.outputCallId)).Nodup ∧
      ∀ callId, callId ∈ ((markOutputs answered seen outputs).filter (·.2)).filterMap
          (·.1.item.outputCallId) ↔
        callId ∈ answered ∧ callId ∉ seen ∧ ∃ o ∈ outputs, o.item.outputCallId = some callId := by
  induction outputs generalizing seen with
  | nil =>
    refine ⟨nodup_nil, fun callId => ⟨fun h => absurd h not_mem_nil, ?_⟩⟩
    rintro ⟨-, -, o, ho, -⟩
    cases ho
  | cons e _ ih =>
    obtain ⟨hnodup, hmem⟩ := ih (e.item.outputCallId.toList ++ seen)
    rw [markOutputs, filter_cons]
    rcases hid : e.item.outputCallId with _ | first
    · -- an item without an id is never marked
      rw [hid] at hnodup hmem
      rw [if_neg (by simp)]
      refine ⟨hnodup, fun callId => ?_⟩
      rw [hmem]
      simp [hid]
    · rw [hid] at hnodup hmem
      by_cases hfirst : first ∈ answered ∧ first ∉ seen
      · rw [if_pos (by simpa using hfirst), filterMap_cons, hid]
        constructor
        · refine nodup_cons.mpr ⟨fun h => ?_, hnodup⟩
          exact ((hmem first).mp h).2.1 (by simp)
        · intro callId
          rw [mem_cons, hmem]
          by_cases heq : callId = first
          · subst heq
            simp [hfirst, hid]
          · have hne : ¬ first = callId := fun h => heq h.symm
            simp [heq, hne, hid]
      · rw [if_neg (by simpa using hfirst)]
        refine ⟨hnodup, fun callId => ?_⟩
        rw [hmem]
        by_cases heq : callId = first
        · subst heq
          simp only [Option.toList_some, singleton_append, mem_cons, true_or, not_true,
            false_and, and_false, false_iff]
          exact fun h => hfirst ⟨h.1, h.2.1⟩
        · have hne : ¬ first = callId := fun h => heq h.symm
          simp [heq, hne, hid]

theorem filterMap_keptOutputs (calls outputs : List ResponseItemEnvelope) :
    (keptOutputs calls outputs).filterMap (·.item.outputCallId)
      = ((markOutputs (answeredIds calls outputs) [] outputs).filter (·.2)).filterMap
          (·.1.item.outputCallId) := by
  rw [keptOutputs, filterMap_map]
  rfl

theorem nodup_keptOutputs :
    ((keptOutputs calls outputs).filterMap (·.item.outputCallId)).Nodup := by
  rw [filterMap_keptOutputs]
  exact (markOutputs_ids _ _ _).1

/-- The kept outputs answer the kept calls. -/
theorem mem_keptOutputs_iff :
    callId ∈ (keptOutputs calls outputs).filterMap (·.item.outputCallId) ↔
      callId ∈ answeredIds calls outputs := by
  rw [filterMap_keptOutputs, (markOutputs_ids _ _ _).2]
  constructor
  · exact fun h => h.1
  · exact fun h => ⟨h, not_mem_nil, (mem_answeredIds_iff.mp h).2.2⟩

theorem exists_id_of_marked {x : ResponseItemEnvelope × Bool}
    (hx : x ∈ markOutputs answered seen outputs) (hkept : x.2) :
    ∃ callId, x.1.item.outputCallId = some callId := by
  induction outputs generalizing seen with
  | nil => cases hx
  | cons e _ ih =>
    rcases mem_cons.mp hx with rfl | hx
    · exact Option.isSome_iff_exists.mp (Option.isSome_of_any hkept)
    · exact ih hx

theorem exists_id_of_keptOutputs {o : ResponseItemEnvelope}
    (h : o ∈ keptOutputs calls outputs) :
    ∃ callId ∈ answeredIds calls outputs, o.item.outputCallId = some callId := by
  obtain ⟨x, hx, rfl⟩ := mem_map.mp h
  obtain ⟨callId, hid⟩ := exists_id_of_marked (mem_of_mem_filter hx) (mem_filter.mp hx).2
  exact ⟨callId, mem_keptOutputs_iff.mp (mem_filterMap.mpr ⟨_, h, hid⟩), hid⟩

/-- Of outputs that all answer, each another call, all are marked. -/
theorem markOutputs_all
    (h : ∀ o ∈ outputs, ∃ callId, o.item.outputCallId = some callId ∧ callId ∈ answered ∧
      callId ∉ seen) (hnodup : (outputs.filterMap (·.item.outputCallId)).Nodup) :
    ∀ x ∈ markOutputs answered seen outputs, x.2 := by
  induction outputs generalizing seen with
  | nil => exact fun x hx => absurd hx not_mem_nil
  | cons _ _ ih =>
    obtain ⟨⟨callId, hid, hanswered, hfresh⟩, hrest⟩ := forall_mem_cons.mp h
    rw [filterMap_cons, hid] at hnodup
    obtain ⟨hnot, hnodup⟩ := nodup_cons.mp hnodup
    rw [markOutputs, hid]
    refine forall_mem_cons.mpr ⟨by simp [hanswered, hfresh], ih (fun o ho => ?_) hnodup⟩
    obtain ⟨other, hoid, hother, hseen⟩ := hrest o ho
    have hne : other ≠ callId := fun heq =>
      hnot (mem_filterMap.mpr ⟨o, ho, heq ▸ hoid⟩)
    exact ⟨other, hoid, hother, by simp [hne, hseen]⟩

end Block

/-! ### A second repair -/

/-- A single item that stays. -/
abbrev isSaid (e : ResponseItemEnvelope) : Bool := !e.item.isToolCallItem

/-- What is left of a segment, as the walk will cut it. -/
def keepSegments : Segment → List Segment
  | .plain e =>
    if !e.item.isToolOutputItem || isStandaloneToolOutput e.item then [.plain e] else []
  | .block calls outputs =>
    ((keptCalls calls outputs).takeWhile isSaid).map .plain ++
      match (keptCalls calls outputs).dropWhile isSaid with
      | [] => []
      | e :: said => [.block (e :: said) (keptOutputs calls outputs)]

theorem flat_plain (items : List ResponseItemEnvelope) : flat (items.map .plain) = items := by
  induction items with
  | nil => rfl
  | cons e _ ih => exact congrArg (e :: ·) ih

theorem keptOutputs_eq_nil (h : answeredIds calls outputs = []) :
    keptOutputs calls outputs = [] := by
  refine eq_nil_iff_forall_not_mem.mpr fun o ho => ?_
  obtain ⟨callId, hmem, -⟩ := exists_id_of_keptOutputs ho
  rw [h] at hmem
  cases hmem

theorem answeredIds_eq_nil
    (h : (keptCalls calls outputs).dropWhile isSaid = []) : answeredIds calls outputs = [] := by
  rw [answeredIds_eq, filterMap_eq_nil_iff]
  intro e he
  have hsaid := dropWhile_eq_nil_iff.mp h e he
  exact toolCallId_of_said (by simpa using hsaid)

theorem flat_keepSegments_block (calls outputs : List ResponseItemEnvelope) :
    flat (keepSegments (.block calls outputs)) = (Segment.block calls outputs).kept := by
  rw [keepSegments, kept_block]
  have hall := takeWhile_append_dropWhile (p := isSaid) (l := keptCalls calls outputs)
  rcases hdrop : (keptCalls calls outputs).dropWhile isSaid with _ | ⟨e, said⟩
  · rw [hdrop, append_nil] at hall
    rw [hall, keptOutputs_eq_nil (answeredIds_eq_nil hdrop), append_nil, append_nil, flat_plain]
  · rw [hdrop] at hall
    rw [flat, flatMap_append, ← flat, flat_plain]
    conv_rhs => rw [← hall]
    simp [Segment.items]

theorem flat_keepSegments_plain (e : ResponseItemEnvelope) :
    flat (keepSegments (.plain e)) = (Segment.plain e).kept := by
  rw [keepSegments, Segment.kept, Segment.marked]
  split
  · next hpass => simp [hpass, Segment.items]
  · next hpass => simp [Bool.eq_false_iff.mpr hpass]

theorem flat_keepSegments (segs : List Segment) :
    flat (segs.flatMap keepSegments) = segs.flatMap Segment.kept := by
  rw [flat, flatMap_assoc]
  refine flatMap_congr fun s _ => ?_
  cases s with
  | plain e => exact flat_keepSegments_plain e
  | block calls outputs => exact flat_keepSegments_block calls outputs

section Kept

variable {calls outputs said : List ResponseItemEnvelope} {e : ResponseItemEnvelope}
variable {x : ResponseItemEnvelope}

section

variable (hdrop : (keptCalls calls outputs).dropWhile isSaid = e :: said)

include hdrop

theorem mem_keptCalls_of_dropWhile (hx : x ∈ e :: said) : x ∈ keptCalls calls outputs := by
  rw [← hdrop] at hx
  exact (dropWhile_sublist _).subset hx

/-- The calls of a kept block are the answered ones. -/
theorem mem_answeredIds_iff_kept :
    callId ∈ answeredIds calls outputs ↔ ∃ x ∈ e :: said, x.item.toolCallId = some callId := by
  rw [answeredIds_eq, mem_filterMap]
  constructor
  · rintro ⟨x, hx, hid⟩
    rw [← takeWhile_append_dropWhile (p := isSaid) (l := keptCalls calls outputs), hdrop] at hx
    rcases mem_append.mp hx with hx | hx
    · have hsaid := mem_takeWhile_imp hx
      rw [toolCallId_of_said (by simpa using hsaid)] at hid
      cases hid
    · exact ⟨x, hx, hid⟩
  · rintro ⟨x, hx, hid⟩
    exact ⟨x, mem_keptCalls_of_dropWhile hdrop hx, hid⟩

theorem head_isToolCallItem : e.item.isToolCallItem := by
  have hhead : e ∈ ((keptCalls calls outputs).dropWhile isSaid).head? := by
    rw [hdrop]
    rfl
  simpa using not_of_mem_head?_dropWhile hhead

end

theorem exists_keptOutput (h : callId ∈ answeredIds calls outputs) :
    ∃ o ∈ keptOutputs calls outputs, o.item.outputCallId = some callId :=
  mem_filterMap.mp (mem_keptOutputs_iff.mpr h)

theorem answeredIds_kept (hdrop : (keptCalls calls outputs).dropWhile isSaid = e :: said)
    (h : callId ∈ answeredIds calls outputs) :
    callId ∈ answeredIds (e :: said) (keptOutputs calls outputs) :=
  mem_answeredIds_iff.mpr ⟨(mem_answeredIds_iff_kept hdrop).mp h, (mem_answeredIds_iff.mp h).2.1,
    exists_keptOutput h⟩

theorem answered_of_keptCalls (hx : x ∈ keptCalls calls outputs) (hcall : x.item.isToolCallItem) :
    ∃ callId ∈ answeredIds calls outputs, x.item.toolCallId = some callId := by
  have hkept := (mem_filter.mp hx).2
  rw [hcall, Bool.not_true] at hkept
  obtain ⟨callId, hid⟩ := toolCallId_of_isAnswered hkept
  refine ⟨callId, ?_, hid⟩
  rw [answeredIds_eq]
  exact mem_filterMap.mpr ⟨x, hx, hid⟩

end Kept

theorem segmented_plain {after : List Segment}
    (hitems : ∀ x ∈ items, isSaid x) (hafter : Segmented after) :
    Segmented (items.map .plain ++ after) := by
  induction items with
  | nil => exact hafter
  | cons _ _ ih =>
    obtain ⟨hx, hitems⟩ := forall_mem_cons.mp hitems
    exact .plain (by simpa using hx) (ih hitems)

/-- **What is left is cut as it was.** -/
theorem Segmented.segmented_keepSegments (h : Segmented segs) (hsep : Separate segs) :
    Segmented (segs.flatMap keepSegments) := by
  induction h with
  | nil => exact .nil
  | @plain _ _ hcall _ ih =>
    rw [flatMap_cons, keepSegments]
    split
    · exact .plain hcall (ih hsep)
    · exact ih hsep
  | @block first rest outputs after hcall hsaid hstop houtputs hend hafter ih =>
    obtain ⟨hnext, hsep⟩ := hsep
    obtain ⟨hblock, -⟩ :=
      (Segmented.block hcall hsaid hstop houtputs hend hafter).formed _ mem_cons_self
    rw [flatMap_cons, keepSegments, append_assoc]
    refine segmented_plain (fun x hx => mem_takeWhile_imp hx) ?_
    rcases hdrop : (keptCalls (first :: rest) outputs).dropWhile isSaid with _ | ⟨e, said⟩
    · exact ih hsep
    show Segmented (.block (e :: said) _ :: after.flatMap keepSegments)
    have hcall' := head_isToolCallItem hdrop
    have hmem := fun x hx => mem_keptCalls_of_dropWhile (x := x) hdrop hx
    refine .block hcall' (fun x hx => ?_) ?_ ?_ ?_ (ih hsep)
    · exact hblock x (mem_of_mem_filter (hmem x (mem_cons_of_mem _ hx)))
    · -- the kept call has an output, so an output comes next
      obtain ⟨callId, hanswered, -⟩ := answered_of_keptCalls (hmem e mem_cons_self) hcall'
      obtain ⟨o, ho, -⟩ := exists_keptOutput hanswered
      obtain ⟨o, os, hcons⟩ := exists_cons_of_ne_nil (ne_nil_of_mem ho)
      rw [hcons]
      intro x hx
      obtain rfl : o = x := Option.some.inj hx
      have ho : o ∈ keptOutputs (first :: rest) outputs := hcons ▸ mem_cons_self
      obtain ⟨other, -, hid⟩ := exists_id_of_keptOutputs ho
      exact not_inCallBlock_of_output (isToolOutputItem_of_outputCallId hid)
    · intro o ho
      obtain ⟨callId, hanswered, hid⟩ := exists_id_of_keptOutputs ho
      obtain ⟨x, hx, hxid⟩ := (mem_answeredIds_iff_kept hdrop).mp hanswered
      rw [answersOneOf, hid]
      exact any_eq_true.mpr ⟨x, hx, by simp [hxid]⟩
    · rw [flat_keepSegments]
      intro x hx
      rw [answersOneOf]
      rcases hid : x.item.outputCallId with _ | callId
      · rfl
      · refine Bool.eq_false_iff.mpr fun hany => ?_
        obtain ⟨call, hmem, hcallId⟩ := any_eq_true.mp hany
        exact hnext x hx callId
          ((mem_answeredIds_iff_kept hdrop).mpr ⟨call, hmem, by simpa using hcallId⟩) hid

/-- Everything that is left is part of a pair. -/
theorem Segment.Formed.marked_keepSegments (h : s.Formed) :
    ∀ x ∈ (keepSegments s).flatMap Segment.marked, x.2 := by
  cases s with
  | plain =>
    rw [keepSegments]
    split
    · next hpass =>
      intro x hx
      obtain rfl := mem_singleton.mp hx
      exact hpass
    · exact fun x hx => absurd hx not_mem_nil
  | block calls outputs =>
    rw [keepSegments, flatMap_append]
    refine forall_mem_append.mpr ⟨?_, ?_⟩
    · intro x hx
      obtain ⟨s, hs, hx⟩ := mem_flatMap.mp hx
      obtain ⟨e, he, rfl⟩ := mem_map.mp hs
      obtain rfl := mem_singleton.mp hx
      have hin := h.1 e (mem_of_mem_filter ((takeWhile_sublist _).subset he))
      simp [not_isToolOutputItem_of_inCallBlock hin]
    · rcases hdrop : (keptCalls calls outputs).dropWhile isSaid with _ | ⟨e, said⟩
      · exact fun x hx => absurd hx not_mem_nil
      rw [flatMap_singleton]
      refine forall_mem_append.mpr ⟨?_, ?_⟩
      · intro x hx
        obtain ⟨y, hy, rfl⟩ := mem_map.mp hx
        by_cases hycall : y.item.isToolCallItem = true
        · obtain ⟨callId, hanswered, hid⟩ :=
            answered_of_keptCalls (mem_keptCalls_of_dropWhile hdrop hy) hycall
          obtain ⟨o, ho, hoid⟩ := exists_keptOutput hanswered
          simp only [isAnswered_eq hid, Bool.or_eq_true, decide_eq_true_eq, any_eq_true]
          exact .inr ⟨(mem_answeredIds_iff.mp hanswered).2.1, o, ho, by simp [hoid]⟩
        · simp [hycall]
      · refine markOutputs_all (fun o ho => ?_) nodup_keptOutputs
        obtain ⟨callId, hanswered, hid⟩ := exists_id_of_keptOutputs ho
        exact ⟨callId, hid, answeredIds_kept hdrop hanswered, not_mem_nil⟩

/-- Where everything is marked, the repair does nothing. -/
theorem repair_of_marked (h : ∀ x ∈ (segments items).flatMap Segment.marked, x.2) :
    repairReplayedToolPairs items = (items, ⟨[], []⟩) := by
  have hkeep : ∀ j ∈ judgeAll items, j.keep = true := by
    intro j hj
    refine h j.mark ?_
    rw [← map_mark_judgeAll]
    exact mem_map_of_mem hj
  have hnames : ∀ kind, reportNames (judgeAll items) kind = [] := by
    intro kind
    refine eq_nil_iff_forall_not_mem.mpr fun name hname => ?_
    obtain ⟨j, hj, -, hmem⟩ := mem_reportNames.mp hname
    have hdrop := (settled_of_mem_judgeAll hj).not_keep hmem
    rw [hkeep j hj] at hdrop
    cases hdrop
  have hitems : (judgeAll items).map envelope = items := by
    have hfst : (judgeAll items).map envelope = ((judgeAll items).map mark).map (·.1) := by
      rw [map_map]
      rfl
    rw [hfst, map_mark_judgeAll, map_fst_segments]
  rw [repairReplayedToolPairs]
  simp only [hnames, filter_eq_self.mpr hkeep, hitems]

/-- **A second repair finds nothing to do.** -/
theorem repair_repair (h : Separate (segments items)) :
    repairReplayedToolPairs (repairReplayedToolPairs items).1
      = ((repairReplayedToolPairs items).1, ⟨[], []⟩) := by
  have hsegs := segmented_segments items
  refine repair_of_marked ?_
  rw [fst_repair, ← flat_keepSegments, (hsegs.segmented_keepSegments h).segments_eq,
    flatMap_assoc]
  intro x hx
  obtain ⟨s, hs, hx⟩ := mem_flatMap.mp hx
  exact (hsegs.formed s hs).marked_keepSegments x hx

/-! ### Sending the result -/

theorem callId_wireToken : (wireToken item).callId = item.toolCallId := by
  cases item with
  | message =>
    rw [wireToken]
    split <;> rfl
  | toolSearchOutput _ callId =>
    rcases callId with _ | callId
    · rfl
    · rw [wireToken]
      split <;> rfl
  | functionCallOutput _ given | localShellCall _ given | toolSearchCall _ given
  | contextCompaction _ given => rcases given with _ | given <;> rfl
  | _ => rfl

variable {item}

/-- A single item that stays is neither a call nor an output on the wire. -/
theorem step_plain (hcall : item.isToolCallItem = false)
    (hpass : (!item.isToolOutputItem || isStandaloneToolOutput item)) :
    step validId (.draining []) (wireToken item) = some (.draining []) := by
  cases item with
  | message =>
    rw [wireToken]
    split <;> rfl
  | functionCallOutput _ callId =>
    rcases callId with _ | callId
    · rfl
    · cases hpass
  | customToolCallOutput => cases hpass
  | toolSearchOutput _ callId _ execution =>
    have hserver : execution = "server" := by
      simpa [isStandaloneToolOutput, ResponseItem.isToolOutputItem] using hpass
    subst hserver
    rcases callId with _ | callId <;> rfl
  | functionCall | customToolCall | localShellCall | toolSearchCall => cases hcall
  | contextCompaction _ encryptedContent => rcases encryptedContent with _ | text <;> rfl
  | _ => rfl

theorem wireToken_of_inCallBlock (h : inCallBlock e)
    (hid : e.item.isToolCallItem → ∃ callId, e.item.toolCallId = some callId) :
    wireToken e.item = .assistant ∨ wireToken e.item = .reasoning ∨
      ∃ id, wireToken e.item = .call id := by
  by_cases hcall : e.item.isToolCallItem = true
  · obtain ⟨callId, hid⟩ := hid hcall
    have hcallId := callId_wireToken e.item
    rw [hid] at hcallId
    rcases htoken : wireToken e.item with id | id | _ | _ | _ | _ <;> rw [htoken] at hcallId
    · exact .inr (.inr ⟨id, rfl⟩)
    all_goals cases hcallId
  · have hsaid : e.item.isAssistantCoalescingItem = true := by
      rw [inCallBlock, Bool.or_eq_true] at h
      exact h.resolve_left hcall
    rcases e with ⟨item, metadata⟩
    cases item with
    | message _ role =>
      have hrole : role = "assistant" := of_decide_eq_true hsaid
      exact .inl (if_pos hrole)
    | reasoning => exact .inr (.inl rfl)
    | _ => cases hsaid

theorem map_wireToken_keptOutputs
    (hwire : ∀ x ∈ markOutputs (answeredIds calls outputs) [] outputs, x.2 →
      wireToken x.1.item = .output (x.1.item.outputCallId.getD "")) :
    (keptOutputs calls outputs).map (fun e => wireToken e.item)
      = ((keptOutputs calls outputs).filterMap (·.item.outputCallId)).map .output := by
  have hall : ∀ o ∈ keptOutputs calls outputs, ∃ callId,
      o.item.outputCallId = some callId ∧ wireToken o.item = .output callId := by
    intro o ho
    obtain ⟨callId, -, hid⟩ := exists_id_of_keptOutputs ho
    obtain ⟨x, hx, rfl⟩ := mem_map.mp ho
    obtain ⟨hx, hkept⟩ := mem_filter.mp hx
    have htoken := hwire x hx hkept
    rw [hid] at htoken
    exact ⟨callId, hid, htoken⟩
  generalize keptOutputs calls outputs = kept at hall
  induction kept with
  | nil => rfl
  | cons _ _ ih =>
    obtain ⟨⟨callId, hid, htoken⟩, hrest⟩ := forall_mem_cons.mp hall
    rw [map_cons, filterMap_cons, hid, htoken, ih hrest]
    rfl

/-- A kept block opens its calls and closes them all. -/
theorem run_kept_block
    (h : (Segment.block calls outputs).Formed) (hsend : (Segment.block calls outputs).Sendable) :
    run validId (.draining []) ((Segment.block calls outputs).kept.map fun e => wireToken e.item)
      = some (.draining []) := by
  obtain ⟨hnodup, hwire⟩ := hsend
  have hids : ((keptCalls calls outputs).map fun e => wireToken e.item).filterMap Token.callId
      = answeredIds calls outputs := by
    rw [answeredIds_eq, filterMap_map]
    exact filterMap_congr fun x _ => callId_wireToken x.item
  have hopen : run validId (.draining []) ((keptCalls calls outputs).map fun e => wireToken e.item)
      = some (opening (answeredIds calls outputs)) := by
    show run validId (opening []) _ = some (opening ([] ++ answeredIds calls outputs))
    rw [← hids]
    refine run_opening_block ?_ ?_ ?_
    · intro id hid
      have hmem : id ∈ answeredIds calls outputs := by
        rw [← hids]
        exact mem_filterMap.mpr ⟨_, hid, rfl⟩
      simpa [validId] using (mem_answeredIds_iff.mp hmem).2.1
    · intro t ht
      obtain ⟨x, hx, rfl⟩ := mem_map.mp ht
      refine wireToken_of_inCallBlock (h.1 x (mem_of_mem_filter hx)) fun hxcall => ?_
      obtain ⟨callId, -, hid⟩ := answered_of_keptCalls hx hxcall
      exact ⟨callId, hid⟩
    · rwa [hids]
  rw [kept_block, map_append, run_append, hopen, map_wireToken_keptOutputs hwire]
  exact run_opening_outputs hnodup nodup_keptOutputs fun id => mem_keptOutputs_iff

theorem run_kept_plain (h : (Segment.plain e).Formed) :
    run validId (.draining []) ((Segment.plain e).kept.map fun e => wireToken e.item)
      = some (.draining []) := by
  rw [Segment.kept, Segment.marked]
  rcases hpass : (!e.item.isToolOutputItem || isStandaloneToolOutput e.item) with _ | _
  · rfl
  · show (step validId (.draining []) (wireToken e.item)).bind _ = _
    rw [step_plain h hpass]
    rfl

theorem run_kept (h : ∀ s ∈ segs, s.Formed) (hsend : ∀ s ∈ segs, s.Sendable) :
    run validId (.draining []) ((segs.flatMap Segment.kept).map fun e => wireToken e.item)
      = some (.draining []) := by
  induction segs with
  | nil => rfl
  | cons s _ ih =>
    obtain ⟨hs, hrest⟩ := forall_mem_cons.mp h
    obtain ⟨hsends, hothers⟩ := forall_mem_cons.mp hsend
    rw [flatMap_cons, map_append, run_append]
    cases s with
    | plain => rw [run_kept_plain hs, Option.bind_some, ih hrest hothers]
    | block => rw [run_kept_block hs hsends, Option.bind_some, ih hrest hothers]

/-- **What the repair does.** It cuts the items into call blocks with the output blocks behind them
and single items, and returns, in order, every item that is neither a call nor an output, every
named call that has an output in its block, the first output for each of them and the standalone
outputs. The report names the rest. -/
theorem repairReplayedToolPairs_spec (ser : Serializer) (items : List ResponseItemEnvelope) :
    flat (segments items) = items ∧
    (repairReplayedToolPairs items).1 = (segments items).flatMap Segment.kept ∧
    (repairReplayedToolPairs items).1.Sublist items ∧
    (repairReplayedToolPairs items).1.filter (fun e => isNonTool e.item)
      = items.filter (fun e => isNonTool e.item) ∧
    (∀ s ∈ segments items, ∀ e ∈ s.dropped, e.item.isToolCallItem = true →
      reportedCall e.item ∈ (repairReplayedToolPairs items).2.droppedCalls) ∧
    (∀ name ∈ (repairReplayedToolPairs items).2.droppedCalls, ∃ s ∈ segments items,
      ∃ e ∈ s.dropped, e.item.isToolCallItem = true ∧
        (name = reportedCall e.item ∨ name = "<missing-id>" ∧ e.item.toolCallId = some "")) ∧
    (∀ name, name ∈ (repairReplayedToolPairs items).2.droppedOutputs ↔ ∃ s ∈ segments items,
      ∃ e ∈ s.dropped, e.item.isToolOutputItem = true ∧ name = reportedOutput e.item) ∧
    (Separate (segments items) → repairReplayedToolPairs (repairReplayedToolPairs items).1
      = ((repairReplayedToolPairs items).1, ⟨[], []⟩)) ∧
    ((∀ s ∈ segments items, s.Sendable) →
      (chatMessagesFromItems ser ((repairReplayedToolPairs items).1.map (·.item))).isOk = true) := by
  refine ⟨flat_segments items, fst_repair items, ?_, filter_nonTool_repair items,
    fun s hs e he hcall => reportedCall_mem hs he hcall,
    fun name hname => exists_of_mem_droppedCalls hname, fun name => mem_droppedOutputs_iff,
    repair_repair, fun hsend => ?_⟩
  · rw [fst_repair_eq_marked]
    conv_rhs => rw [← map_fst_segments items]
    exact filter_sublist.map _
  · rw [chatMessagesFromItems_isOk_iff, fst_repair, map_map]
    exact run_kept (segmented_segments items).formed hsend

section Example

def exampleCall : ResponseItemEnvelope := .new (.functionCall none "f" none "\x7b\x7d" "a")

def exampleOutput (text : String) : ResponseItemEnvelope :=
  .new (.functionCallOutput none (some "a") none none (.fromText text) none)

/-- Of two outputs behind a call, both in its output block, only the first stays; and two calls with
one id both stay for their common output, which the Chat projection then refuses. -/
theorem secondOutput_dropped :
    segments [exampleCall, exampleOutput "1", exampleOutput "2"]
      = [.block [exampleCall] [exampleOutput "1", exampleOutput "2"]] ∧
    repairReplayedToolPairs [exampleCall, exampleOutput "1", exampleOutput "2"]
      = ([exampleCall, exampleOutput "1"], ⟨[], ["a"]⟩) ∧
    repairReplayedToolPairs [exampleCall, exampleCall, exampleOutput "1"]
      = ([exampleCall, exampleCall, exampleOutput "1"], ⟨[], []⟩) ∧
    (chatMessagesFromItems ⟨id, String.join⟩
      ([exampleCall, exampleCall, exampleOutput "1"].map (·.item))).isOk = false := by
  refine ⟨?_, ?_, ?_, ?_⟩ <;> decide

end Example

end Replay

end CodexPlus
