/-
CodexPlus/ToolCallSplits.lean

A tool call whose deltas are cut in different ways.

Servers send the id and the name of a call with its first delta, with every delta, or behind
fragments of the arguments, and cut the arguments anywhere.  The decoder appends fragments
to every field until the call has a name; then the name is fixed, but a further id is
still appended.  So the cut does not matter exactly if the id comes once, and not behind
the name (`toolCall_cut_iff`).
-/
import CodexPlus.ChatBrackets

namespace CodexPlus

open List

namespace ChatStream

/-! ### Deltas -/

def idOf (delta : ChatToolCallDelta) : String := delta.id.getD ""

def nameOf (delta : ChatToolCallDelta) : String := delta.name.getD ""

def argumentsOf (delta : ChatToolCallDelta) : String := delta.arguments.getD ""

/-- Deltas that together are one tool call: each may bear the id and the name or leave them out, and
the fragments of the arguments are in order. -/
structure Distributes (id name arguments : String) (deltas : List ChatToolCallDelta) : Prop where
  ids : ∀ delta ∈ deltas, idOf delta = "" ∨ idOf delta = id
  identified : ∃ delta ∈ deltas, idOf delta = id
  named_ne : name ≠ ""
  names : ∀ delta ∈ deltas, nameOf delta = "" ∨ nameOf delta = name
  named : ∃ delta ∈ deltas, nameOf delta = name
  arguments : String.join (deltas.map argumentsOf) = arguments

/-- The deltas up to the first one with the name. -/
def upToName : List ChatToolCallDelta → List ChatToolCallDelta
  | [] => []
  | delta :: deltas => if nameOf delta = "" then delta :: upToName deltas else [delta]

def behindName : List ChatToolCallDelta → List ChatToolCallDelta
  | [] => []
  | delta :: deltas => if nameOf delta = "" then behindName deltas else deltas

/-- How many deltas bear an id. -/
def bearers (deltas : List ChatToolCallDelta) : ℕ := deltas.countP (idOf · ≠ "")

/-- The id that the decoder makes up. -/
def syntheticId (index : ℕ) : String := "call_" ++ toString index

/-- The id comes once, and not behind the name; or it is not needed. -/
def IdOnce (index : ℕ) (id : String) (deltas : List ChatToolCallDelta) : Prop :=
  id = "" ∨ (bearers (upToName deltas) = 1 ∧ bearers (behindName deltas) = 0) ∨
    (bearers (upToName deltas) = 0 ∧ id = syntheticId index)

instance (index : ℕ) (id : String) (deltas : List ChatToolCallDelta) :
    Decidable (IdOnce index id deltas) := inferInstanceAs (Decidable (_ ∨ _ ∨ _))

/-! ### The call -/

/-- The id of a call; one without an id gets one from its index. -/
def callIdOf (index : ℕ) (id : String) : String := if id = "" then syntheticId index else id

/-- The tool that a name on the wire stands for. -/
def toolOf (context : ChatContext) (name : String) : ChatToolName :=
  (context.toolNames name).getD ⟨none, name, false⟩

/-- The item of a call that arrives whole. -/
def wholeItem (context : ChatContext) (callId name arguments : String) : ResponseItem :=
  if (toolOf context name).custom then
    .customToolCall none callId (toolOf context name).name (toolOf context name).toolNamespace
      (context.customToolInput arguments)
  else .functionCall none (toolOf context name).name (toolOf context name).toolNamespace arguments
    callId

/-- The call id of an event of a tool call. -/
def eventCallId : ResponseEvent → Option String
  | .outputItemAdded item | .outputItemDone item => item.toolCallId
  | .toolCallInputDelta _ callId _ => callId
  | _ => none

def Carries (callId : String) (sent : Sent) : Prop :=
  ∃ event, sent = .ok event ∧ eventCallId event = some callId

/-! ### The deltas of one index -/

/-- The accumulator of a call after its deltas, and the events it has sent. -/
def accumulate (context : ChatContext) (index : ℕ) :
    ToolCallAccumulator → List ChatToolCallDelta → ToolCallAccumulator × List Sent
  | call, [] => (call, [])
  | call, delta :: deltas =>
    let (call, events) := call.pushDelta context index delta
    let (call, more) := accumulate context index call deltas
    (call, events ++ more)

def callAt (calls : Std.TreeMap ℕ ToolCallAccumulator) (index : ℕ) : ToolCallAccumulator :=
  (calls.get? index).getD .default

/-- The events that are sent for the deltas of one index. -/
def callEvents (context : ChatContext) (index : ℕ) :
    Std.TreeMap ℕ ToolCallAccumulator → List ChatToolCallDelta → List Sent
  | _, [] => []
  | calls, delta :: deltas =>
    let (calls, events) := pushToolCall context calls delta
    (if delta.index = index then events else []) ++ callEvents context index calls deltas

variable {context : ChatContext} {index : ℕ}

theorem accumulate_cons (call : ToolCallAccumulator) (delta : ChatToolCallDelta)
    (deltas : List ChatToolCallDelta) :
    accumulate context index call (delta :: deltas) =
      ((accumulate context index (call.pushDelta context index delta).1 deltas).1,
        (call.pushDelta context index delta).2 ++
          (accumulate context index (call.pushDelta context index delta).1 deltas).2) := rfl

/-- Deltas of other calls between those of a call do not touch it. -/
theorem pushToolCalls_callAt (context : ChatContext) (index : ℕ) (calls : Std.TreeMap ℕ ToolCallAccumulator)
    (deltas : List ChatToolCallDelta) :
    (callAt (pushToolCalls context calls deltas).1 index, callEvents context index calls deltas) =
      accumulate context index (callAt calls index) (deltas.filter (·.index = index)) := by
  induction deltas generalizing calls with
  | nil => rfl
  | cons delta deltas ih =>
    have ih := ih (pushToolCall context calls delta).1
    show (callAt (pushToolCalls context (pushToolCall context calls delta).1 deltas).1 index,
      (if delta.index = index then (pushToolCall context calls delta).2 else []) ++
        callEvents context index (pushToolCall context calls delta).1 deltas) = _
    by_cases hindex : delta.index = index
    · have hat : callAt (pushToolCall context calls delta).1 index =
          ((callAt calls index).pushDelta context index delta).1 := by
        rw [pushToolCall_fst, hindex]
        simp [callAt]
      have hevents : (pushToolCall context calls delta).2 =
          ((callAt calls index).pushDelta context index delta).2 := by
        rw [← hindex]
        rfl
      rw [hat] at ih
      rw [filter_cons_of_pos (by simpa using hindex), accumulate_cons, ← ih, if_pos hindex, hevents]
    · have hat : callAt (pushToolCall context calls delta).1 index = callAt calls index := by
        rw [pushToolCall_fst, callAt, callAt, Std.TreeMap.get?_eq_getElem?,
          Std.TreeMap.getElem?_insert, if_neg (by simpa using hindex), Std.TreeMap.get?_eq_getElem?]
      rw [hat] at ih
      rw [filter_cons_of_neg (by simpa using hindex), ← ih, if_neg hindex, nil_append]

/-! ### Fields -/

theorem bearers_cons (delta : ChatToolCallDelta) (deltas : List ChatToolCallDelta) :
    bearers (delta :: deltas) = bearers deltas + if idOf delta = "" then 0 else 1 := by
  rw [bearers, countP_cons]
  by_cases hempty : idOf delta = ""
  · rw [if_neg (by simpa using hempty), if_pos hempty]
    rfl
  · rw [if_pos (by simpa using hempty), if_neg hempty]
    rfl

theorem appendNonEmpty_eq (target : String) (value : Option String) :
    appendNonEmpty target value = target ++ value.getD "" := by
  rcases value with - | value
  · exact String.append_empty.symm
  · unfold appendNonEmpty nonEmpty
    by_cases hempty : value = "" <;> simp [hempty, Option.filter]

theorem PendingToolCall.appendDeltaFields_eq (call : PendingToolCall) (delta : ChatToolCallDelta) :
    call.appendDeltaFields delta = ⟨call.id ++ idOf delta, call.rawName ++ nameOf delta,
      call.arguments ++ argumentsOf delta⟩ := by
  rw [appendDeltaFields, appendNonEmpty_eq, appendNonEmpty_eq, appendNonEmpty_eq]
  rfl

/-- A call as it is once all its deltas are there, but for what has been sent. -/
structure StartedToolCall.Is (call : StartedToolCall) (tool : ChatToolName) (id arguments : String) :
    Prop where
  toolNamespace : call.toolNamespace = tool.toolNamespace
  name : call.name = tool.name
  custom : call.custom = tool.custom
  id : call.id = id
  arguments : call.arguments = arguments

variable {call : StartedToolCall} {arguments id name : String}

theorem StartedToolCall.Is.finish (h : call.Is (toolOf context name) id arguments) :
    call.finish context = [.ok (.outputItemDone (wholeItem context id name arguments))] := by
  rw [StartedToolCall.finish, StartedToolCall.item, wholeItem, h.toolNamespace, h.name, h.custom, h.id,
    h.arguments]
  split
  · rfl
  · rfl

theorem carries_emitNewArguments (call : StartedToolCall) :
    ∀ sent ∈ (call.emitNewArguments index).2, Carries call.id sent := by
  unfold StartedToolCall.emitNewArguments
  split
  · exact fun _ hmem => absurd hmem not_mem_nil
  · intro sent hmem
    exact ⟨.toolCallInputDelta _ (some call.id) _, mem_singleton.mp hmem, rfl⟩

theorem carries_emitStart (call : StartedToolCall) : ∀ sent ∈ call.emitStart, Carries call.id sent := by
  intro sent hmem
  refine ⟨.outputItemAdded (call.item ""), mem_singleton.mp hmem, ?_⟩
  unfold StartedToolCall.item
  split
  · rfl
  · rfl

/-- Deltas of a call that has been added. -/
theorem accumulate_started (context : ChatContext) (index : ℕ) {tool : ChatToolName}
    (h : call.Is tool id arguments) (deltas : List ChatToolCallDelta) :
    ∃ call' : StartedToolCall,
      (accumulate context index (.started call) deltas).1 = .started call' ∧
      call'.Is tool (if call.syntheticId then id else id ++ String.join (deltas.map idOf))
        (arguments ++ String.join (deltas.map argumentsOf)) ∧
      (call.syntheticId ∨ bearers deltas = 0 →
        ∀ sent ∈ (accumulate context index (.started call) deltas).2, Carries id sent) := by
  induction deltas generalizing call id arguments with
  | nil =>
    refine ⟨call, rfl, ?_, fun _ _ hmem => absurd hmem not_mem_nil⟩
    rw [map_nil, map_nil, String.join_nil, String.append_empty, String.append_empty, ite_self]
    exact h
  | cons delta deltas ih =>
    have hnext : (call.appendDeltaFields delta).Is tool
        (if call.syntheticId then id else id ++ idOf delta) (arguments ++ argumentsOf delta) := by
      refine ⟨h.toolNamespace, h.name, h.custom, ?_, ?_⟩
      · rw [StartedToolCall.appendDeltaFields, appendNonEmpty_eq, h.id]
        rfl
      · rw [StartedToolCall.appendDeltaFields, appendNonEmpty_eq, appendNonEmpty_eq, h.arguments]
        rfl
    have hsent : ((call.appendDeltaFields delta).emitNewArguments index).1.Is tool
        (if call.syntheticId then id else id ++ idOf delta) (arguments ++ argumentsOf delta) := by
      rw [StartedToolCall.emitNewArguments_fst]
      exact ⟨hnext.toolNamespace, hnext.name, hnext.custom, hnext.id, hnext.arguments⟩
    have hsynthetic : ((call.appendDeltaFields delta).emitNewArguments index).1.syntheticId =
        call.syntheticId := by
      rw [StartedToolCall.emitNewArguments_fst]
      rfl
    obtain ⟨call', hcall', his, hcarries⟩ := ih hsent
    rw [hsynthetic] at his hcarries
    refine ⟨call', hcall', ?_, fun hkeeps sent hmem => ?_⟩
    · rw [map_cons, map_cons, String.join_cons, String.join_cons, ← String.append_assoc,
        ← String.append_assoc]
      by_cases hs : call.syntheticId
      · simp only [if_pos hs] at his ⊢
        exact his
      · simp only [if_neg hs] at his ⊢
        exact his
    · -- the id stays, now and later
      have hid : (if call.syntheticId then id else id ++ idOf delta) = id ∧
          (call.syntheticId = true ∨ bearers deltas = 0) := by
        rcases hkeeps with hs | hnone
        · exact ⟨if_pos hs, .inl hs⟩
        rw [bearers_cons] at hnone
        have hempty : idOf delta = "" := by
          by_contra hne
          rw [if_neg hne] at hnone
          omega
        rw [hempty, String.append_empty, ite_self]
        exact ⟨rfl, .inr (Nat.eq_zero_of_add_eq_zero_right hnone)⟩
      rcases mem_append.mp hmem with hmem | hmem
      · have hcarried := carries_emitNewArguments (call.appendDeltaFields delta) sent hmem
        rw [hnext.id, hid.1] at hcarried
        exact hcarried
      · rw [hid.1] at hcarries
        exact hcarries hid.2 sent hmem

theorem start_eq (hne : name ≠ "") :
    (PendingToolCall.mk id name arguments).start context index = some
      { id := callIdOf index id
        syntheticId := decide (id = "")
        toolNamespace := (toolOf context name).toolNamespace
        name := (toolOf context name).name
        custom := (toolOf context name).custom
        arguments := arguments
        emittedArgumentBytes := 0 } := by
  unfold PendingToolCall.start callIdOf
  rw [if_neg hne]
  by_cases hid : id = ""
  · simp only [hid, decide_true, if_true]
    rfl
  · simp only [hid, decide_false, if_false, Bool.false_eq_true]
    rfl

variable {deltas : List ChatToolCallDelta}

/-- Deltas of a call that waits for its name. -/
theorem accumulate_pending (context : ChatContext) (index : ℕ) (hne : name ≠ "") (id arguments : String)
    (hnames : ∀ delta ∈ deltas, nameOf delta = "" ∨ nameOf delta = name)
    (hnamed : ∃ delta ∈ deltas, nameOf delta = name) :
    ∃ call : StartedToolCall,
      (accumulate context index (.pending ⟨id, "", arguments⟩) deltas).1 = .started call ∧
      call.Is (toolOf context name)
        (if id ++ String.join ((upToName deltas).map idOf) = "" then syntheticId index
          else id ++ String.join ((upToName deltas).map idOf) ++
            String.join ((behindName deltas).map idOf))
        (arguments ++ String.join (deltas.map argumentsOf)) ∧
      (id ++ String.join ((upToName deltas).map idOf) = "" ∨ bearers (behindName deltas) = 0 →
        ∀ sent ∈ (accumulate context index (.pending ⟨id, "", arguments⟩) deltas).2,
          Carries (callIdOf index (id ++ String.join ((upToName deltas).map idOf))) sent) := by
  induction deltas generalizing id arguments with
  | nil =>
    obtain ⟨_, hmem, -⟩ := hnamed
    cases hmem
  | cons delta deltas ih =>
    rw [map_cons, String.join_cons, ← String.append_assoc]
    by_cases hempty : nameOf delta = ""
    · -- still without a name
      have hpush : (ToolCallAccumulator.pending ⟨id, "", arguments⟩).pushDelta context index delta =
          (.pending ⟨id ++ idOf delta, "", arguments ++ argumentsOf delta⟩, []) := by
        rw [ToolCallAccumulator.pushDelta, PendingToolCall.appendDeltaFields_eq, hempty]
        rfl
      have hrest := ih (id ++ idOf delta) (arguments ++ argumentsOf delta)
        (fun delta' hmem => hnames delta' (mem_cons_of_mem _ hmem)) (by
          obtain ⟨delta', hmem, hname⟩ := hnamed
          rcases mem_cons.mp hmem with rfl | hmem
          · exact absurd (hname.symm.trans hempty) hne
          · exact ⟨delta', hmem, hname⟩)
      rw [upToName, if_pos hempty, behindName, if_pos hempty, map_cons, String.join_cons,
        ← String.append_assoc, accumulate_cons, hpush]
      exact hrest
    · -- the call is added with what is there
      have hname : nameOf delta = name :=
        (hnames delta mem_cons_self).resolve_left hempty
      have hstart : (PendingToolCall.mk (id ++ idOf delta) name
          (arguments ++ argumentsOf delta)).start context index = some _ := start_eq hne
      generalize hcall : StartedToolCall.mk _ _ _ _ _ _ _ = call at hstart
      have his : call.Is (toolOf context name) (callIdOf index (id ++ idOf delta))
          (arguments ++ argumentsOf delta) := by
        rw [← hcall]
        exact ⟨rfl, rfl, rfl, rfl, rfl⟩
      have hpush : (ToolCallAccumulator.pending ⟨id, "", arguments⟩).pushDelta context index delta =
          (.started (call.emitNewArguments index).1,
            call.emitStart ++ (call.emitNewArguments index).2) := by
        rw [ToolCallAccumulator.pushDelta, PendingToolCall.appendDeltaFields_eq, hname,
          String.empty_append, hstart]
      have hemitted : (call.emitNewArguments index).1.Is (toolOf context name)
          (callIdOf index (id ++ idOf delta)) (arguments ++ argumentsOf delta) := by
        rw [StartedToolCall.emitNewArguments_fst]
        exact ⟨his.toolNamespace, his.name, his.custom, his.id, his.arguments⟩
      have hsynthetic : (call.emitNewArguments index).1.syntheticId = true ↔
          id ++ idOf delta = "" := by
        rw [StartedToolCall.emitNewArguments_fst, ← hcall]
        exact decide_eq_true_iff
      obtain ⟨call', hcall', hfinal, hcarries⟩ := accumulate_started context index hemitted deltas
      rw [upToName, if_neg hempty, behindName, if_neg hempty, map_singleton, String.join_cons,
        String.join_nil, String.append_empty, accumulate_cons, hpush]
      refine ⟨call', hcall', ?_, fun hkeeps sent hmem => ?_⟩
      · by_cases hid : id ++ idOf delta = ""
        · rw [if_pos (hsynthetic.mpr hid), callIdOf, if_pos hid] at hfinal
          rw [if_pos hid]
          exact hfinal
        · rw [if_neg (mt hsynthetic.mp hid), callIdOf, if_neg hid] at hfinal
          rw [if_neg hid]
          exact hfinal
      · rcases mem_append.mp hmem with hmem | hmem
        · rw [← his.id]
          rcases mem_append.mp hmem with hmem | hmem
          · exact carries_emitStart call sent hmem
          · exact carries_emitNewArguments call sent hmem
        · exact hcarries (hkeeps.imp_left hsynthetic.mpr) sent hmem

/-! ### The theorem -/

/-- The ids of deltas that all bear the same one, if any. -/
theorem join_ids (h : ∀ delta ∈ deltas, idOf delta = "" ∨ idOf delta = id) :
    String.join (deltas.map idOf) = String.join (List.replicate (bearers deltas) id) := by
  induction deltas with
  | nil => rfl
  | cons delta _ ih =>
    have ih := ih fun delta' hmem => h delta' (mem_cons_of_mem _ hmem)
    rw [map_cons, String.join_cons, ih, bearers_cons]
    by_cases hempty : idOf delta = ""
    · rw [if_pos hempty, hempty, String.empty_append, Nat.add_zero]
    · rw [if_neg hempty, (h delta mem_cons_self).resolve_left hempty, replicate_succ,
        String.join_cons]

theorem join_replicate_length (n : ℕ) (id : String) :
    (String.join (List.replicate n id)).length = n * id.length := by
  induction n with
  | zero => simp
  | succ n ih => rw [replicate_succ, String.join_cons, String.length_append, ih, Nat.succ_mul,
      Nat.add_comm]

/-- A non-empty id repeated is the id itself only once. -/
theorem join_replicate_eq_iff {n : ℕ} (hid : id ≠ "") :
    String.join (List.replicate n id) = id ↔ n = 1 := by
  have hpos : 0 < id.length := Nat.pos_of_ne_zero (mt String.length_eq_zero_iff.mp hid)
  constructor
  · intro h
    have hlength := congrArg String.length h
    rw [join_replicate_length] at hlength
    exact Nat.eq_of_mul_eq_mul_right hpos (hlength.trans (Nat.one_mul _).symm)
  · rintro rfl
    rw [replicate_one, String.join_cons, String.join_nil, String.append_empty]

theorem join_replicate_eq_empty_iff {n : ℕ} (hid : id ≠ "") :
    String.join (List.replicate n id) = "" ↔ n = 0 := by
  have hpos : 0 < id.length := Nat.pos_of_ne_zero (mt String.length_eq_zero_iff.mp hid)
  rw [← String.length_eq_zero_iff, join_replicate_length, Nat.mul_eq_zero]
  omega

variable {delta : ChatToolCallDelta}

theorem mem_of_mem_upToName (h : delta ∈ upToName deltas) : delta ∈ deltas := by
  induction deltas with
  | nil => exact h
  | cons _ _ ih =>
    rw [upToName] at h
    split at h
    · rcases mem_cons.mp h with rfl | h
      · exact mem_cons_self
      · exact mem_cons_of_mem _ (ih h)
    · rw [mem_singleton.mp h]
      exact mem_cons_self

theorem mem_of_mem_behindName (h : delta ∈ behindName deltas) : delta ∈ deltas := by
  induction deltas with
  | nil => exact h
  | cons _ _ ih =>
    rw [behindName] at h
    split at h
    · exact mem_cons_of_mem _ (ih h)
    · exact mem_cons_of_mem _ h

theorem wholeItem_toolCallId (context : ChatContext) (callId name arguments : String) :
    (wholeItem context callId name arguments).toolCallId = some callId := by
  unfold wholeItem
  split
  · rfl
  · rfl

/-- The id that a call ends up with. -/
def finalId (index : ℕ) (deltas : List ChatToolCallDelta) : String :=
  if String.join ((upToName deltas).map idOf) = "" then syntheticId index
  else String.join ((upToName deltas).map idOf) ++ String.join ((behindName deltas).map idOf)

theorem finalId_eq_iff (h : Distributes id name arguments deltas) :
    finalId index deltas = callIdOf index id ↔ IdOnce index id deltas := by
  have hup := join_ids fun delta hmem => h.ids delta (mem_of_mem_upToName hmem)
  have hbehind := join_ids fun delta hmem => h.ids delta (mem_of_mem_behindName hmem)
  rw [finalId, hup, hbehind, callIdOf, IdOnce]
  by_cases hid : id = ""
  · have hempty : ∀ n, String.join (List.replicate n id) = "" := by
      intro n
      rw [← String.length_eq_zero_iff, join_replicate_length, hid]
      rfl
    rw [if_pos (hempty _), if_pos hid]
    exact iff_of_true rfl (.inl hid)
  · rw [if_neg hid, or_iff_right hid]
    by_cases hnone : bearers (upToName deltas) = 0
    · -- the call starts without an id
      rw [if_pos ((join_replicate_eq_empty_iff hid).mpr hnone)]
      constructor
      · exact fun heq => .inr ⟨hnone, heq.symm⟩
      · rintro (⟨hone, -⟩ | ⟨-, heq⟩)
        · omega
        · exact heq.symm
    · rw [if_neg (mt (join_replicate_eq_empty_iff hid).mp hnone), ← String.join_append,
        replicate_append_replicate, join_replicate_eq_iff hid]
      constructor
      · exact fun hone => .inl ⟨by omega, by omega⟩
      · rintro (⟨hone, hzero⟩ | ⟨hzero, -⟩)
        all_goals omega

/-- Where the id comes once, the call starts with it and no later delta bears one. -/
theorem IdOnce.starts (honce : IdOnce index id deltas) (h : Distributes id name arguments deltas) :
    (String.join ((upToName deltas).map idOf) = "" ∨ bearers (behindName deltas) = 0) ∧
      callIdOf index (String.join ((upToName deltas).map idOf)) = callIdOf index id := by
  rw [join_ids fun delta hmem => h.ids delta (mem_of_mem_upToName hmem)]
  rcases honce with hid | ⟨hone, hzero⟩ | ⟨hzero, hid⟩
  · have hempty : String.join (List.replicate (bearers (upToName deltas)) id) = "" := by
      rw [← String.length_eq_zero_iff, join_replicate_length, hid]
      rfl
    rw [hempty, hid]
    exact ⟨.inl rfl, rfl⟩
  · rw [hone, replicate_one, String.join_cons, String.join_nil, String.append_empty]
    exact ⟨.inr hzero, rfl⟩
  · have hsame : callIdOf index id = syntheticId index := by
      unfold callIdOf
      split
      · rfl
      · exact hid
    rw [hzero, hsame]
    exact ⟨.inl rfl, rfl⟩

/-- **Tool-call deltas can be cut anywhere as long as the id comes once and not behind the name.**
Whatever deltas of other calls stand between those of a call, its final item is that of the whole
call, and all its events carry the call id, exactly under that condition. -/
theorem toolCall_cut_iff (context : ChatContext) (index : ℕ) {id name arguments : String}
    {deltas : List ChatToolCallDelta}
    (h : Distributes id name arguments (deltas.filter (·.index = index))) :
    ((callAt (pushToolCalls context ∅ deltas).1 index).finish context =
        .ok [.ok (.outputItemDone (wholeItem context (callIdOf index id) name arguments))] ∧
      ∀ sent ∈ callEvents context index ∅ deltas ++
          [.ok (.outputItemDone (wholeItem context (callIdOf index id) name arguments))],
        Carries (callIdOf index id) sent) ↔
      IdOnce index id (deltas.filter (·.index = index)) := by
  obtain ⟨hcall, hevents⟩ := Prod.ext_iff.mp (pushToolCalls_callAt context index ∅ deltas)
  dsimp only at hcall hevents
  have hnew : callAt ∅ index = .pending ⟨"", "", ""⟩ := rfl
  obtain ⟨call, haccumulated, his, hcarries⟩ :=
    accumulate_pending context index h.named_ne "" "" h.names h.named
  rw [String.empty_append, h.arguments] at his
  have hfinish : (callAt (pushToolCalls context ∅ deltas).1 index).finish context =
      .ok [.ok (.outputItemDone
        (wholeItem context (finalId index (deltas.filter (·.index = index))) name arguments))] := by
    rw [hcall, hnew, haccumulated]
    exact congrArg _ his.finish
  rw [← finalId_eq_iff h, hfinish]
  constructor
  · rintro ⟨hdone, -⟩
    have hitem : wholeItem context (finalId index (deltas.filter (·.index = index))) name arguments =
        wholeItem context (callIdOf index id) name arguments := by simpa using hdone
    have hids := congrArg ResponseItem.toolCallId hitem
    rw [wholeItem_toolCallId, wholeItem_toolCallId] at hids
    exact Option.some.inj hids
  · intro hfinal
    obtain ⟨hkeeps, hstart⟩ := ((finalId_eq_iff h).mp hfinal).starts h
    rw [hfinal]
    refine ⟨rfl, fun sent hmem => ?_⟩
    rcases mem_append.mp hmem with hmem | hmem
    · rw [hevents] at hmem
      rw [← hstart]
      exact hcarries hkeeps sent hmem
    · rw [mem_singleton.mp hmem]
      exact ⟨_, rfl, wholeItem_toolCallId _ _ _ _⟩

/-- One call in two deltas, both of which bear the id and the name, as some servers send it. -/
def repeatedDeltas : List ChatToolCallDelta :=
  [⟨0, some "c", some ⟨some "f", some "x"⟩⟩, ⟨0, some "c", some ⟨some "f", some "y"⟩⟩]

/-- The same call with its id and name in the first delta only. -/
def headedDeltas : List ChatToolCallDelta :=
  [⟨0, some "c", some ⟨some "f", some "x"⟩⟩, ⟨0, none, some ⟨none, some "y"⟩⟩]

/-- The call is added with the id "c" and done with the id "cc". -/
theorem repeatedId_doubled :
    callEvents plainContext 0 ∅ repeatedDeltas =
        [.ok (.outputItemAdded (.functionCall none "f" none "" "c")),
          .ok (.toolCallInputDelta "c" (some "c") "x"),
          .ok (.toolCallInputDelta "cc" (some "cc") "y")] ∧
      (callAt (pushToolCalls plainContext ∅ repeatedDeltas).1 0).finish plainContext =
        .ok [.ok (.outputItemDone (.functionCall none "f" none "xy" "cc"))] := by
  obtain ⟨hcall, hevents⟩ := Prod.ext_iff.mp (pushToolCalls_callAt plainContext 0 ∅ repeatedDeltas)
  dsimp only at hcall hevents
  exact ⟨by decide, by decide⟩

theorem headedDeltas_cut :
    (callAt (pushToolCalls plainContext ∅ headedDeltas).1 0).finish plainContext =
      .ok [.ok (.outputItemDone (wholeItem plainContext (callIdOf 0 "c") "f" "xy"))] := by
  have h : Distributes "c" "f" "xy" (headedDeltas.filter (·.index = 0)) := by
    refine ⟨?_, ?_, ?_, ?_, ?_, ?_⟩
    all_goals decide
  exact ((toolCall_cut_iff plainContext 0 h).mpr (by decide)).1

end ChatStream

end CodexPlus
