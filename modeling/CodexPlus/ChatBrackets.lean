/-
CodexPlus/ChatBrackets.lean

The events of a Chat stream are bracketed: every item that is added is done once,
with the text its deltas brought, before the response completes.

`Brackets` is the discipline as a transition system on the items that are open.
What is open in a state of the decoder is `openItems`; each function of the
decoder moves it by the events it sends.  A started tool call is closed by the
finish reason "tool_calls" only, and nothing closes what is opened after a finish
reason, so the discipline holds along the runs of `CleanRun`.
-/
import CodexPlus.ChatStream
import CodexPlus.Text

namespace CodexPlus

open List

namespace ChatStream

/-! ### The discipline -/

/-- The items without an id, of which one can be open at a time. -/
inductive Slot where
  | message
  | reasoning
  deriving DecidableEq, Repr

def Slot.kind : Slot → TextItem
  | .message => ChatStream.message
  | .reasoning => ChatStream.reasoning

/-- What identifies a tool call. -/
structure CallKey where
  callId : String
  name : String
  toolNamespace : Option String
  custom : Bool
  deriving DecidableEq, Repr

def CallKey.item (key : CallKey) (content : String) : ResponseItem :=
  if key.custom then .customToolCall none key.callId key.name key.toolNamespace content
  else .functionCall none key.name key.toolNamespace content key.callId

/-- The items that have been added and are not done, with the text of their deltas so far. -/
@[ext]
structure OpenItems where
  text : Slot → Option String
  calls : Multiset (CallKey × String)

namespace OpenItems

def nothing : OpenItems := ⟨fun _ => none, 0⟩

def setText (o : OpenItems) (slot : Slot) (text : Option String) : OpenItems :=
  { o with text := Function.update o.text slot text }

end OpenItems

/-- One event: an item is added, gets a delta, or is done with the text of its deltas.  The input
of a custom tool call is not the text of its deltas. -/
inductive Brackets : OpenItems → ResponseEvent → OpenItems → Prop
  | created {o : OpenItems} (responseId : Option String) : Brackets o (.created responseId) o
  | textAdded {o : OpenItems} (slot : Slot) (h : o.text slot = none) :
      Brackets o (.outputItemAdded slot.kind.added) (o.setText slot (some ""))
  | textDelta {o : OpenItems} (slot : Slot) {text : String} (h : o.text slot = some text)
      (delta : String) : Brackets o (slot.kind.delta delta) (o.setText slot (some (text ++ delta)))
  | textDone {o : OpenItems} (slot : Slot) {text : String} (h : o.text slot = some text) :
      Brackets o (.outputItemDone (slot.kind.done text)) (o.setText slot none)
  | callAdded {text : Slot → Option String} {calls : Multiset (CallKey × String)} (key : CallKey) :
      Brackets ⟨text, calls⟩ (.outputItemAdded (key.item "")) ⟨text, (key, "") ::ₘ calls⟩
  | callDelta {text : Slot → Option String} {calls : Multiset (CallKey × String)} (key : CallKey)
      (arguments itemId delta : String) :
      Brackets ⟨text, (key, arguments) ::ₘ calls⟩ (.toolCallInputDelta itemId (some key.callId) delta)
        ⟨text, (key, arguments ++ delta) ::ₘ calls⟩
  | callDone {text : Slot → Option String} {calls : Multiset (CallKey × String)} (key : CallKey)
      {arguments content : String} (h : key.custom = false → content = arguments) :
      Brackets ⟨text, (key, arguments) ::ₘ calls⟩ (.outputItemDone (key.item content)) ⟨text, calls⟩

/-- Events that are sent one after the other. -/
inductive Sends : OpenItems → List Sent → OpenItems → Prop
  | nil (o : OpenItems) : Sends o [] o
  | cons {o o₁ o₂ : OpenItems} {event : ResponseEvent} {events : List Sent}
      (h : Brackets o event o₁) (hrest : Sends o₁ events o₂) : Sends o (.ok event :: events) o₂

def isTerminal : Sent → Bool
  | .error _ => true
  | .ok (.completed ..) => true
  | .ok _ => false

/-- **Well bracketed.**  The events end with the only terminal one; if the response completes,
every item has been closed before. -/
def WellBracketed (events : List Sent) : Prop :=
  ∃ init last, events = init ++ [last] ∧ isTerminal last = true ∧ (∀ e ∈ init, isTerminal e = false) ∧
    ((∃ id usage endTurn, last = .ok (.completed id usage endTurn)) → Sends .nothing init .nothing)

namespace Sends

variable {o o₁ o₂ : OpenItems} {events more : List Sent}

theorem append (h : Sends o events o₁) (hmore : Sends o₁ more o₂) : Sends o (events ++ more) o₂ := by
  induction h with
  | nil => exact hmore
  | cons hevent _ ih => exact .cons hevent (ih hmore)

theorem single {event : ResponseEvent} (h : Brackets o event o₁) : Sends o [.ok event] o₁ :=
  .cons h (.nil _)

theorem not_terminal (h : Sends o events o₁) : ∀ e ∈ events, isTerminal e = false := by
  induction h with
  | nil => simp
  | cons hevent _ ih =>
    intro e he
    rcases mem_cons.mp he with rfl | he
    · cases hevent with
      | textDelta slot => cases slot <;> rfl
      | _ => rfl
    · exact ih e he

end Sends

/-! ### What is open in a state -/

def TextAccumulator.openText (a : TextAccumulator) : Option String :=
  if a.state = .streaming then some a.text else none

def StartedToolCall.key (call : StartedToolCall) : CallKey :=
  ⟨call.id, call.name, call.toolNamespace, call.custom⟩

def ToolCallAccumulator.openCall : ToolCallAccumulator → Option (CallKey × String)
  | .pending _ => none
  | .started call => some (call.key, call.arguments)

def openCalls (calls : Std.TreeMap ℕ ToolCallAccumulator) : Multiset (CallKey × String) :=
  (calls.toList.filterMap fun entry => entry.2.openCall : List (CallKey × String))

def ChatStreamState.openItems (s : ChatStreamState) : OpenItems where
  text := fun
    | .message => s.content.openText
    | .reasoning => s.reasoning.openText
  calls := openCalls s.toolCalls

/-! ### Text -/

theorem nonEmpty_eq_some {value : Option String} {text : String} :
    nonEmpty value = some text ↔ value = some text ∧ text ≠ "" := by
  simp [nonEmpty, Option.filter_eq_some_iff]

open OpenItems

namespace TextAccumulator

/-- An accumulator holds a text exactly while its item is open. -/
def Settled (a : TextAccumulator) : Prop := a.state = .pending ↔ a.text = ""

theorem push_settled (a : TextAccumulator) (kind : TextItem) {content : String}
    (hcontent : content ≠ "") : (a.push kind content).1.Settled := by
  show StreamItemState.streaming = .pending ↔ a.text ++ content = ""
  simp [hcontent]

theorem empty_settled : empty.Settled := ⟨fun _ => rfl, fun _ => rfl⟩

variable {a : TextAccumulator} {o : OpenItems}

theorem Settled.push_sends (h : a.Settled) (slot : Slot) (ho : o.text slot = a.openText)
    (content : String) :
    Sends o (a.push slot.kind content).2 (o.setText slot (some (a.text ++ content))) := by
  rcases a with ⟨text, - | -⟩
  · obtain rfl : text = "" := h.mp rfl
    have hadded : Brackets o (.outputItemAdded slot.kind.added) (o.setText slot (some "")) :=
      .textAdded slot ho
    have hempty : (o.setText slot (some "")).text slot = some "" := Function.update_self ..
    have hdelta := Brackets.textDelta slot hempty content
    rw [show (o.setText slot (some "")).setText slot (some ("" ++ content)) =
      o.setText slot (some ("" ++ content)) by simp [setText]] at hdelta
    exact .cons hadded (.single hdelta)
  · exact .single (.textDelta slot ho content)

theorem send_sends (hstate : a.state = .streaming) (slot : Slot) (ho : o.text slot = a.openText) :
    Sends o (a.send slot.kind).2 (o.setText slot none) := by
  rw [openText, if_pos hstate] at ho
  exact .single (.textDone slot ho)

end TextAccumulator

/-! ### Tool calls -/

theorem dropBytes_append (before after : List Char) :
    dropBytes (String.utf8Len before) (before ++ after) = after := by
  induction before with
  | nil => cases after <;> rfl
  | cons c before ih =>
    have hpos := c.utf8Size_pos
    have hlen : String.utf8Len (c :: before) = String.utf8Len before + c.utf8Size := rfl
    obtain ⟨bytes, hbytes⟩ : ∃ bytes, String.utf8Len (c :: before) = bytes + 1 :=
      Nat.exists_eq_add_one_of_ne_zero (by omega)
    rw [hbytes, cons_append, dropBytes, ← hbytes, hlen, Nat.add_sub_cancel, ih]

theorem sliceFrom_append (before after : String) :
    sliceFrom (before ++ after) before.utf8ByteSize = after := by
  have hlen : before.utf8ByteSize = String.utf8Len before.toList := by
    rw [← String.utf8ByteSize_ofList, String.ofList_toList]
  rw [sliceFrom, String.toList_append, hlen, dropBytes_append, String.ofList_toList]

/-- The call that is open, if any. -/
def callBag (call : Option (CallKey × String)) : Multiset (CallKey × String) :=
  (call.toList : List (CallKey × String))

@[simp]
theorem callBag_none : callBag none = 0 := rfl

@[simp]
theorem callBag_some (call : CallKey × String) : callBag (some call) = {call} := rfl

variable {context : ChatContext} {texts : Slot → Option String}
variable {rest : Multiset (CallKey × String)} {index : ℕ}

namespace PendingToolCall

theorem start_eq_none {call : PendingToolCall} :
    call.start context index = none ↔ call.rawName = "" := by
  unfold start
  split <;> simp_all

theorem start_emittedArgumentBytes {call : PendingToolCall}
    {startedCall : StartedToolCall} (h : call.start context index = some startedCall) :
    startedCall.emittedArgumentBytes = 0 := by
  unfold start at h
  split at h
  · cases h
  · cases h
    rfl

end PendingToolCall

namespace StartedToolCall

variable (call : StartedToolCall) (index : ℕ)

theorem emitNewArguments_fst :
    (call.emitNewArguments index).1 =
      { call with emittedArgumentBytes := call.arguments.utf8ByteSize } := by
  unfold emitNewArguments
  split
  · next h => rw [← h]
  · rfl

/-- The arguments that have not been sent yet. -/
theorem emitNewArguments_sends {sent new : String} (harguments : call.arguments = sent ++ new)
    (hbytes : call.emittedArgumentBytes = sent.utf8ByteSize) :
    Sends ⟨texts, (call.key, sent) ::ₘ rest⟩ (call.emitNewArguments index).2
      ⟨texts, (call.key, call.arguments) ::ₘ rest⟩ := by
  unfold emitNewArguments
  split
  · next h =>
    have hnew : new = "" := by
      rw [harguments, String.utf8ByteSize_append] at h
      exact String.utf8ByteSize_eq_zero_iff.mp (by omega)
    rw [harguments, hnew, String.append_empty]
    exact .nil _
  · rw [hbytes, harguments, sliceFrom_append]
    exact .single (.callDelta call.key sent _ new)

end StartedToolCall

variable {delta : ChatToolCallDelta} {call : ToolCallAccumulator}

open ToolCallAccumulator

namespace ToolCallAccumulator

/-- Between deltas, a call without a name has not been added, and all arguments of one that has
been added have been sent. -/
def Settled : ToolCallAccumulator → Prop
  | .pending call => call.rawName = ""
  | .started call => call.emittedArgumentBytes = call.arguments.utf8ByteSize

/-- The delta does not change the id of a call that has been added. -/
def KeepsId (delta : ChatToolCallDelta) : ToolCallAccumulator → Prop
  | .pending _ => True
  | .started call => call.syntheticId = true ∨ nonEmpty delta.id = none

instance (delta : ChatToolCallDelta) : (call : ToolCallAccumulator) → Decidable (call.KeepsId delta)
  | .pending _ => .isTrue trivial
  | .started _ => inferInstanceAs (Decidable (_ ∨ _))

theorem exists_appendNonEmpty (target : String) (value : Option String) :
    ∃ new, appendNonEmpty target value = target ++ new := by
  unfold appendNonEmpty
  split
  · exact ⟨_, rfl⟩
  · exact ⟨"", String.append_empty.symm⟩

open StartedToolCall

theorem pushDelta_settled (call : ToolCallAccumulator) (index : ℕ) (delta : ChatToolCallDelta) :
    (call.pushDelta context index delta).1.Settled := by
  rcases call with call | call
  · rcases hstart : (call.appendDeltaFields delta).start context index with - | startedCall
    · simp [pushDelta, hstart]
      exact PendingToolCall.start_eq_none.mp hstart
    · simp [pushDelta, hstart, emitNewArguments_fst]
      rfl
  · simp [pushDelta, emitNewArguments_fst]
    rfl

/-- **One delta of a tool call.**  The call is added when it has a name, and its arguments follow. -/
theorem pushDelta_sends (h : call.Settled) (index : ℕ) (hid : call.KeepsId delta) :
    Sends ⟨texts, callBag call.openCall + rest⟩ (call.pushDelta context index delta).2
      ⟨texts, callBag (call.pushDelta context index delta).1.openCall + rest⟩ := by
  rcases call with call | call
  · rcases hstart : (call.appendDeltaFields delta).start context index with - | startedCall
    · simp [pushDelta, hstart]
      exact .nil _
    · simp [pushDelta, hstart, emitNewArguments_fst]
      have hbytes : startedCall.emittedArgumentBytes = "".utf8ByteSize :=
        PendingToolCall.start_emittedArgumentBytes hstart
      have hsent : Sends ⟨texts, (startedCall.key, "") ::ₘ rest⟩ _ _ :=
        startedCall.emitNewArguments_sends index String.empty_append.symm hbytes
      have hopen : callBag (started
          { startedCall with emittedArgumentBytes := startedCall.arguments.utf8ByteSize }).openCall =
          {(startedCall.key, startedCall.arguments)} := rfl
      refine .cons ?_ hsent
      show Brackets ⟨texts, 0 + rest⟩ _ _
      rw [Multiset.zero_add]
      exact .callAdded startedCall.key
  · obtain ⟨new, hnew⟩ := exists_appendNonEmpty call.arguments delta.arguments
    have hid' : (call.appendDeltaFields delta).id = call.id := by
      rcases hid with hsynthetic | hnone
      · exact if_pos hsynthetic
      · simp [appendDeltaFields, appendNonEmpty, hnone]
    have hkey : (call.appendDeltaFields delta).key = call.key := by
      unfold key
      rw [hid']
      rfl
    have hsent : Sends ⟨texts, ((call.appendDeltaFields delta).key, call.arguments) ::ₘ rest⟩ _ _ :=
      (call.appendDeltaFields delta).emitNewArguments_sends index hnew h
    rw [hkey] at hsent
    simp only [pushDelta, emitNewArguments_fst]
    have hopen : callBag (started
        { call.appendDeltaFields delta with
          emittedArgumentBytes := (call.appendDeltaFields delta).arguments.utf8ByteSize }).openCall =
        {(call.key, (call.appendDeltaFields delta).arguments)} := by
      rw [← hkey]
      rfl
    rw [hopen]
    exact hsent

end ToolCallAccumulator

/-- The open calls at other indices. -/
def otherCalls (calls : Std.TreeMap ℕ ToolCallAccumulator) (index : ℕ) :
    Multiset (CallKey × String) :=
  ((calls.toList.filter (·.1 ≠ index)).filterMap fun entry => entry.2.openCall :
    List (CallKey × String))

/-- An entry of a list with different keys, before the others. -/
theorem perm_cons_filter {α : Type} {entries : List (ℕ × α)} {value : α}
    (hkeys : entries.Pairwise fun a b => a.1 ≠ b.1) (h : (index, value) ∈ entries) :
    entries.Perm ((index, value) :: entries.filter (·.1 ≠ index)) := by
  induction entries with
  | nil => cases h
  | cons entry entries ih =>
    obtain ⟨hhead, htail⟩ := pairwise_cons.mp hkeys
    rcases mem_cons.mp h with rfl | hrest
    · have hself : entries.filter (·.1 ≠ index) = entries := filter_eq_self.mpr fun other hother => by
        simpa using (hhead other hother).symm
      rw [filter_cons_of_neg (by simp), hself]
    · have hne : entry.1 ≠ index := hhead _ hrest
      rw [filter_cons_of_pos (by simpa using hne)]
      exact ((ih htail hrest).cons entry).trans (List.Perm.swap ..)

section Calls

variable {calls : Std.TreeMap ℕ ToolCallAccumulator}

theorem keys_ne (calls : Std.TreeMap ℕ ToolCallAccumulator) :
    calls.toList.Pairwise fun a b => a.1 ≠ b.1 :=
  calls.distinct_keys_toList.imp fun h heq => h (Nat.compare_eq_eq.mpr heq)

theorem mem_toList : (index, call) ∈ calls.toList ↔ calls.get? index = some call := by
  rw [Std.TreeMap.mem_toList_iff_getElem?_eq_some, Std.TreeMap.get?_eq_getElem?]

theorem openCalls_eq (calls : Std.TreeMap ℕ ToolCallAccumulator) (index : ℕ) :
    openCalls calls = callBag ((calls.get? index).getD .default).openCall + otherCalls calls index := by
  rcases hget : calls.get? index with - | call
  · have hself : calls.toList.filter (·.1 ≠ index) = calls.toList := by
      refine filter_eq_self.mpr fun entry hentry => ?_
      have hmem := mem_toList.mp hentry
      have hne : entry.1 ≠ index := fun heq => by rw [heq, hget] at hmem; cases hmem
      simpa using hne
    rw [otherCalls, hself]
    exact (Multiset.zero_add _).symm
  · have hperm := (perm_cons_filter (keys_ne calls) (mem_toList.mpr hget)).filterMap
      fun entry => entry.2.openCall
    rw [openCalls, Multiset.coe_eq_coe.mpr hperm]
    rcases call with call | call <;> rfl

theorem openCalls_insert (calls : Std.TreeMap ℕ ToolCallAccumulator) (index : ℕ)
    (call : ToolCallAccumulator) :
    openCalls (calls.insert index call) = callBag call.openCall + otherCalls calls index := by
  have hperm : (calls.insert index call).toList.Perm
      ((index, call) :: calls.toList.filter (·.1 ≠ index)) := by
    refine Std.TreeMap.toList_insert_perm.trans (List.Perm.cons _ ?_)
    refine List.Perm.of_eq (filter_congr fun entry _ => ?_)
    by_cases heq : entry.1 = index
    · simp [heq]
    · simp [heq, Ne.symm heq]
  rw [openCalls, Multiset.coe_eq_coe.mpr (hperm.filterMap fun entry => entry.2.openCall)]
  rcases call with call | call <;> rfl

def AllSettled (calls : Std.TreeMap ℕ ToolCallAccumulator) : Prop :=
  ∀ entry ∈ calls.toList, entry.2.Settled

theorem AllSettled.get (h : AllSettled calls) (index : ℕ) :
    ((calls.get? index).getD .default).Settled := by
  rcases hget : calls.get? index with - | call
  · rfl
  · exact h (index, call) (mem_toList.mpr hget)

theorem AllSettled.insert (h : AllSettled calls) (index : ℕ)
    (hcall : call.Settled) : AllSettled (calls.insert index call) := by
  intro entry hentry
  have hmem := Std.TreeMap.toList_insert_perm.mem_iff.mp hentry
  rcases mem_cons.mp hmem with rfl | hrest
  · exact hcall
  · exact h entry (mem_filter.mp hrest).1

theorem pushToolCall_fst (calls : Std.TreeMap ℕ ToolCallAccumulator) (delta : ChatToolCallDelta) :
    (pushToolCall context calls delta).1 = calls.insert delta.index
      (((calls.get? delta.index).getD .default).pushDelta context delta.index delta).1 := rfl

theorem AllSettled.pushToolCall (h : AllSettled calls) (delta : ChatToolCallDelta) :
    AllSettled (pushToolCall context calls delta).1 :=
  h.insert delta.index (pushDelta_settled _ _ _)

theorem pushToolCall_sends (h : AllSettled calls)
    (hid : ((calls.get? delta.index).getD .default).KeepsId delta) :
    Sends ⟨texts, openCalls calls⟩ (pushToolCall context calls delta).2
      ⟨texts, openCalls (pushToolCall context calls delta).1⟩ := by
  rw [openCalls_eq calls delta.index]
  rw [pushToolCall_fst, openCalls_insert]
  exact pushDelta_sends (h.get delta.index) delta.index hid

/-- No delta of the list changes the id of a call that has been added. -/
def KeepIds (context : ChatContext) (calls : Std.TreeMap ℕ ToolCallAccumulator) :
    List ChatToolCallDelta → Prop
  | [] => True
  | delta :: deltas => ((calls.get? delta.index).getD .default).KeepsId delta ∧
      KeepIds context (pushToolCall context calls delta).1 deltas

instance decidableKeepIds (context : ChatContext) : (calls : Std.TreeMap ℕ ToolCallAccumulator) →
    (deltas : List ChatToolCallDelta) → Decidable (KeepIds context calls deltas)
  | _, [] => .isTrue trivial
  | calls, delta :: deltas =>
    have := decidableKeepIds context (pushToolCall context calls delta).1 deltas
    inferInstanceAs (Decidable (_ ∧ _))

theorem AllSettled.pushToolCalls (h : AllSettled calls) (deltas : List ChatToolCallDelta) :
    AllSettled (pushToolCalls context calls deltas).1 := by
  induction deltas generalizing calls with
  | nil => exact h
  | cons delta _ ih => exact ih (h.pushToolCall delta)

variable {deltas : List ChatToolCallDelta}

theorem pushToolCalls_sends (h : AllSettled calls) (hids : KeepIds context calls deltas) :
    Sends ⟨texts, openCalls calls⟩ (pushToolCalls context calls deltas).2
      ⟨texts, openCalls (pushToolCalls context calls deltas).1⟩ := by
  induction deltas generalizing calls with
  | nil => exact .nil _
  | cons delta _ ih =>
    exact (pushToolCall_sends h hids.1).append (ih (h.pushToolCall delta) hids.2)

/-- No call has been added. -/
def AllPending (calls : Std.TreeMap ℕ ToolCallAccumulator) : Prop :=
  ∀ entry ∈ calls.toList, entry.2.openCall = none

instance (calls : Std.TreeMap ℕ ToolCallAccumulator) : Decidable (AllPending calls) :=
  inferInstanceAs (Decidable (∀ entry ∈ calls.toList, entry.2.openCall = none))

theorem openCalls_eq_zero : openCalls calls = 0 ↔ AllPending calls := by
  rw [openCalls, Multiset.coe_eq_zero, filterMap_eq_nil_iff]
  rfl

theorem pushDelta_pending (hcall : call.openCall = none)
    (hsettled : call.Settled) (hname : nonEmpty delta.name = none)
    (index : ℕ) : (call.pushDelta context index delta).1.openCall = none := by
  rcases call with call | call
  · have hstart : (call.appendDeltaFields delta).start context index = none := by
      rw [PendingToolCall.start_eq_none]
      show appendNonEmpty call.rawName delta.name = ""
      rw [appendNonEmpty, hname]
      exact hsettled
    simp only [pushDelta, hstart]
    rfl
  · cases hcall

/-- Deltas without a name add no call. -/
theorem AllPending.pushToolCalls (h : AllPending calls) (hsettled : AllSettled calls)
    (hnames : ∀ delta ∈ deltas, nonEmpty delta.name = none) :
    AllPending (pushToolCalls context calls deltas).1 := by
  induction deltas generalizing calls with
  | nil => exact h
  | cons delta _ ih =>
    have hnext : AllPending (pushToolCall context calls delta).1 := by
      rw [← openCalls_eq_zero] at h ⊢
      rw [openCalls_eq calls delta.index, add_eq_zero] at h
      have hcall : ((calls.get? delta.index).getD .default).openCall = none := by
        rcases hopen : ((calls.get? delta.index).getD .default).openCall with - | call
        · rfl
        · rw [hopen] at h
          exact absurd h.1 (Multiset.singleton_ne_zero call)
      rw [pushToolCall_fst, openCalls_insert,
        pushDelta_pending hcall (hsettled.get _) (hnames delta mem_cons_self), h.2]
      rfl
    exact ih hnext (hsettled.pushToolCall delta) fun other hother =>
      hnames other (mem_cons_of_mem _ hother)

/-- Closing the calls: all are done, unless one of them has no name. -/
theorem finishToolCalls_sends (context : ChatContext) (texts : Slot → Option String)
    (entries : List (ℕ × ToolCallAccumulator)) :
    ∃ left, Sends ⟨texts, (entries.filterMap fun entry => entry.2.openCall : List (CallKey × String))⟩
        (ChatStreamState.finishToolCalls context entries).1 ⟨texts, left⟩ ∧
      ((ChatStreamState.finishToolCalls context entries).2 = .ok () → left = 0) := by
  induction entries with
  | nil => exact ⟨0, .nil _, fun _ => rfl⟩
  | cons entry entries ih =>
    obtain ⟨index, call | call⟩ := entry
    · exact ⟨_, .nil _, fun h => by cases h⟩
    · obtain ⟨left, hsends, hleft⟩ := ih
      refine ⟨left, .cons ?_ hsends, hleft⟩
      have hcontent : call.key.custom = false →
          (if call.custom then context.customToolInput call.arguments else call.arguments) =
            call.arguments := fun hcustom => if_neg (Bool.eq_false_iff.mp hcustom)
      have hlist : (((index, started call) :: entries).filterMap
          fun entry => entry.2.openCall : List (CallKey × String)) =
          (call.key, call.arguments) :: entries.filterMap fun entry => entry.2.openCall := rfl
      rw [hlist, ← Multiset.cons_coe]
      exact .callDone call.key hcontent

end Calls

/-! ### Steps of the decoder -/

variable {finishReason : String}

open TextAccumulator

namespace ChatStreamState

variable {s : ChatStreamState}

structure Settled (s : ChatStreamState) : Prop where
  content : s.content.Settled
  reasoning : s.reasoning.Settled
  calls : AllSettled s.toolCalls

variable (s) (a : TextAccumulator)

theorem openItems_content :
    { s with content := a }.openItems = s.openItems.setText .message a.openText := by
  ext slot
  · cases slot <;> simp [openItems, setText]
  · rfl

theorem openItems_reasoning :
    { s with reasoning := a }.openItems = s.openItems.setText .reasoning a.openText := by
  ext slot
  · cases slot <;> simp [openItems, setText]
  · rfl

theorem openItems_text_content :
    s.openItems.text .message = s.content.openText := rfl

theorem openItems_text_reasoning :
    s.openItems.text .reasoning = s.reasoning.openText := rfl

variable {s}

theorem Settled.pushReasoning (h : s.Settled) (text : Option String) :
    (s.pushReasoning text).1.Settled ∧
      Sends s.openItems (s.pushReasoning text).2 (s.pushReasoning text).1.openItems := by
  rcases htext : nonEmpty text with - | content
  · simp [ChatStreamState.pushReasoning, htext]
    exact ⟨h, .nil _⟩
  · simp [ChatStreamState.pushReasoning, htext]
    have hne := (nonEmpty_eq_some.mp htext).2
    refine ⟨⟨h.content, s.reasoning.push_settled ChatStream.reasoning hne, h.calls⟩, ?_⟩
    rw [openItems_reasoning s (s.reasoning.push ChatStream.reasoning content).1]
    exact h.reasoning.push_sends .reasoning s.openItems_text_reasoning content

theorem Settled.pushContent (h : s.Settled) (text : Option String) :
    (s.pushContent text).1.Settled ∧
      Sends s.openItems (s.pushContent text).2 (s.pushContent text).1.openItems := by
  rcases htext : nonEmpty text with - | content
  · simp [ChatStreamState.pushContent, htext]
    exact ⟨h, .nil _⟩
  · simp [ChatStreamState.pushContent, htext]
    have hne := (nonEmpty_eq_some.mp htext).2
    refine ⟨⟨s.content.push_settled message hne, h.reasoning, h.calls⟩, ?_⟩
    rw [openItems_content s (s.content.push message content).1]
    exact h.content.push_sends .message s.openItems_text_content content

/-- The reasoning is closed, whether it was open or not. -/
theorem Settled.endReasoning (h : s.Settled) :
    s.endReasoning.1.Settled ∧ s.endReasoning.1.openItems = s.openItems.setText .reasoning none ∧
      Sends s.openItems s.endReasoning.2 s.endReasoning.1.openItems := by
  unfold ChatStreamState.endReasoning finishReasoning
  by_cases hstate : s.reasoning.state = .streaming
  · simp [hstate]
    refine ⟨⟨h.content, empty_settled, h.calls⟩, openItems_reasoning s _, ?_⟩
    rw [openItems_reasoning s (s.reasoning.send ChatStream.reasoning).1]
    exact send_sends hstate .reasoning s.openItems_text_reasoning
  · simp [hstate]
    have hsame := openItems_reasoning s s.reasoning
    rw [openText, if_neg hstate] at hsame
    exact ⟨⟨h.content, h.reasoning, h.calls⟩, hsame, .nil _⟩

theorem Settled.endContent (h : s.Settled) :
    s.endContent.1.Settled ∧ s.endContent.1.openItems = s.openItems.setText .message none ∧
      Sends s.openItems s.endContent.2 s.endContent.1.openItems := by
  unfold ChatStreamState.endContent finishContent
  by_cases htext : s.content.text = ""
  · have hstate : ¬ s.content.state = .streaming := by simp [h.content.mpr htext]
    simp only [htext, if_true]
    have hsame := openItems_content s s.content
    rw [openText, if_neg hstate] at hsame
    exact ⟨⟨h.content, h.reasoning, h.calls⟩, hsame, .nil _⟩
  · have hstate : s.content.state = .streaming := by
      rcases hcases : s.content.state with - | -
      · exact absurd (h.content.mp hcases) htext
      · rfl
    simp only [htext, if_false]
    refine ⟨⟨TextAccumulator.empty_settled, h.reasoning, h.calls⟩, openItems_content s _, ?_⟩
    rw [openItems_content s (s.content.send message).1]
    exact send_sends hstate .message s.openItems_text_content

/-- The reasoning of a delta: what it adds, closed before an answer output. -/
def think (s : ChatStreamState) (delta : ChatDelta) : ChatStreamState × List Sent :=
  let (s, thought) := s.pushReasoning delta.reasoningContent
  let (s, closed) := if delta.hasAnswerOutput then s.endReasoning else (s, [])
  (s, thought ++ closed)

theorem applyDelta_eq (s : ChatStreamState) (delta : ChatDelta) :
    s.applyDelta context delta =
      let (s₁, thought) := s.think delta
      let (s₂, said) := s₁.pushContent delta.content
      let (calls, called) := pushToolCalls context s₂.toolCalls (delta.toolCalls.getD [])
      ({ s₂ with toolCalls := calls }, thought ++ said ++ called) := rfl

theorem Settled.think (h : s.Settled) (delta : ChatDelta) :
    (s.think delta).1.Settled ∧ Sends s.openItems (s.think delta).2 (s.think delta).1.openItems := by
  obtain ⟨hsettled, hsends⟩ := h.pushReasoning delta.reasoningContent
  unfold ChatStreamState.think
  simp only
  split
  · obtain ⟨hended, -, hcloses⟩ := hsettled.endReasoning
    exact ⟨hended, hsends.append hcloses⟩
  · rw [append_nil]
    exact ⟨hsettled, hsends⟩

variable (s)

/-- What neither text is part of stays the same. -/
theorem said_frame {β : Type} (f : ChatStreamState → β) (delta : ChatDelta)
    (hcontent : ∀ s a, f { s with content := a } = f s)
    (hreasoning : ∀ s a, f { s with reasoning := a } = f s) :
    f ((s.think delta).1.pushContent delta.content).1 = f s := by
  have hthink : f (s.think delta).1 = f s := by
    have hpush : f (s.pushReasoning delta.reasoningContent).1 = f s := by
      unfold pushReasoning
      split
      · exact hreasoning _ _
      · rfl
    unfold think
    simp only
    split
    · exact (hreasoning _ _).trans hpush
    · exact hpush
  unfold pushContent
  split
  · exact (hcontent _ _).trans hthink
  · exact hthink

variable (delta : ChatDelta)

theorem said_toolCalls :
    ((s.think delta).1.pushContent delta.content).1.toolCalls = s.toolCalls :=
  s.said_frame toolCalls delta (fun _ _ => rfl) fun _ _ => rfl

theorem openItems_toolCalls (calls : Std.TreeMap ℕ ToolCallAccumulator) :
    { s with toolCalls := calls }.openItems = ⟨s.openItems.text, openCalls calls⟩ := rfl

theorem applyDelta_toolCalls : (s.applyDelta context delta).1.toolCalls =
      (pushToolCalls context s.toolCalls (delta.toolCalls.getD [])).1 := by
  rw [← s.said_toolCalls delta]
  rfl

theorem applyDelta_finished : (s.applyDelta context delta).1.finished = s.finished :=
  s.said_frame finished delta (fun _ _ => rfl) fun _ _ => rfl

theorem applyDelta_text : (s.applyDelta context delta).1.openItems.text =
      ((s.think delta).1.pushContent delta.content).1.openItems.text := rfl

variable {s}

/-- **One delta.** -/
theorem Settled.applyDelta (h : s.Settled) {delta : ChatDelta}
    (hids : KeepIds context s.toolCalls (delta.toolCalls.getD [])) :
    (s.applyDelta context delta).1.Settled ∧
      Sends s.openItems (s.applyDelta context delta).2 (s.applyDelta context delta).1.openItems := by
  obtain ⟨hthought, hthinks⟩ := h.think delta
  obtain ⟨hsaid, hsays⟩ := hthought.pushContent delta.content
  rw [← s.said_toolCalls delta] at hids
  refine ⟨⟨hsaid.content, hsaid.reasoning, hsaid.calls.pushToolCalls _⟩, ?_⟩
  exact (hthinks.append hsays).append (pushToolCalls_sends hsaid.calls hids)

/-- Both texts closed, in the order of `finish_items`. -/
theorem Settled.endTexts (h : s.Settled) :
    s.endReasoning.1.endContent.1.Settled ∧
      s.endReasoning.1.endContent.1.openItems = ⟨fun _ => none, openCalls s.toolCalls⟩ ∧
      Sends s.openItems (s.endReasoning.2 ++ s.endReasoning.1.endContent.2)
        s.endReasoning.1.endContent.1.openItems := by
  obtain ⟨hreasoning, hopen, hsends⟩ := h.endReasoning
  obtain ⟨hcontent, hopen', hsends'⟩ := hreasoning.endContent
  refine ⟨hcontent, ?_, hsends.append hsends'⟩
  rw [hopen', hopen]
  ext slot
  · cases slot <;> simp [setText]
  · rfl

theorem openItems_eq_nothing (hcalls : openCalls s.toolCalls = 0)
    (htexts : s.openItems.text = fun _ => none) : s.openItems = .nothing := by
  rw [nothing, ← htexts, ← hcalls]
  rfl

/-- Closing the items for "tool_calls": what is left is a call without a name, and then it fails. -/
theorem Settled.finishItems_calls (h : s.Settled) (context : ChatContext) :
    (s.finishItems context "tool_calls").1.Settled ∧
      (s.finishItems context "tool_calls").1.openItems = .nothing ∧
      ∃ o, Sends s.openItems (s.finishItems context "tool_calls").2.1 o ∧
        ((s.finishItems context "tool_calls").2.2 = .ok () → o = .nothing) := by
  obtain ⟨hsettled, hopen, hsends⟩ := h.endTexts
  obtain ⟨left, hcalls, hleft⟩ := finishToolCalls_sends context (fun _ => none)
    s.endReasoning.1.endContent.1.toolCalls.toList
  have hitems : s.finishItems context "tool_calls" =
      ({ s.endReasoning.1.endContent.1 with toolCalls := ∅ },
        s.endReasoning.2 ++ s.endReasoning.1.endContent.2 ++
          (finishToolCalls context s.endReasoning.1.endContent.1.toolCalls.toList).1,
        (finishToolCalls context s.endReasoning.1.endContent.1.toolCalls.toList).2) := rfl
  rw [hitems]
  refine ⟨⟨hsettled.content, hsettled.reasoning, fun entry hentry => by cases hentry⟩, ?_,
    ⟨fun _ => none, left⟩, hsends.append ?_, fun hok => by rw [hleft hok]; rfl⟩
  · rw [openItems_toolCalls, hopen]
    rfl
  · rw [hopen]
    exact hcalls

/-- Closing the items for another reason leaves the calls as they are. -/
theorem Settled.finishItems_texts (h : s.Settled) (context : ChatContext)
    (hreason : finishReason ≠ "tool_calls") :
    (s.finishItems context finishReason).1.Settled ∧
      (s.finishItems context finishReason).1.openItems = ⟨fun _ => none, openCalls s.toolCalls⟩ ∧
      Sends s.openItems (s.finishItems context finishReason).2.1
        (s.finishItems context finishReason).1.openItems ∧
      (s.finishItems context finishReason).2.2 = .ok () := by
  obtain ⟨hsettled, hopen, hsends⟩ := h.endTexts
  have hitems : s.finishItems context finishReason = (s.endReasoning.1.endContent.1,
      s.endReasoning.2 ++ s.endReasoning.1.endContent.2, .ok ()) := if_neg hreason
  rw [hitems]
  exact ⟨hsettled, hopen, hsends, rfl⟩

end ChatStreamState

/-! ### Clean runs -/

/-- The delta adds nothing that stays open. -/
@[mk_iff]
structure ChatDelta.OpensNothing (delta : ChatDelta) : Prop where
  content : nonEmpty delta.content = none
  reasoning : nonEmpty delta.reasoningContent = none ∨ delta.hasAnswerOutput = true
  calls : ∀ call ∈ delta.toolCalls.getD [], nonEmpty call.name = none

instance (delta : ChatDelta) : Decidable delta.OpensNothing :=
  decidable_of_iff' _ (ChatDelta.opensNothing_iff delta)

/-- What a choice must not do: change the id of a call that has been added, open an item after a
finish reason, or stop with a call open. -/
@[mk_iff]
structure CleanChoice (context : ChatContext) (s : ChatStreamState) (choice : ChatChoice) : Prop where
  keepIds : KeepIds context s.toolCalls (choice.delta.toolCalls.getD [])
  afterFinish : choice.finishReason = none → s.finished = true → choice.delta.OpensNothing
  stops : choice.finishReason = some "stop" → AllPending s.toolCalls ∧
    ∀ call ∈ choice.delta.toolCalls.getD [], nonEmpty call.name = none

instance (context : ChatContext) (s : ChatStreamState) (choice : ChatChoice) :
    Decidable (CleanChoice context s choice) :=
  decidable_of_iff' _ (cleanChoice_iff context s choice)

def CleanChoices (context : ChatContext) (s : ChatStreamState) : List ChatChoice → Prop
  | [] => True
  | choice :: choices => CleanChoice context s choice ∧
      match s.applyChoice context choice with
      | (s, _, .ok _) => CleanChoices context s choices
      | (_, _, .error _) => True

instance decidableCleanChoices (context : ChatContext) : (s : ChatStreamState) →
    (choices : List ChatChoice) → Decidable (CleanChoices context s choices)
  | _, [] => .isTrue trivial
  | s, choice :: choices =>
    have : Decidable (match s.applyChoice context choice with
        | (s, _, .ok _) => CleanChoices context s choices
        | (_, _, .error _) => True) :=
      match s.applyChoice context choice with
      | (s, _, .ok _) => decidableCleanChoices context s choices
      | (_, _, .error _) => .isTrue trivial
    inferInstanceAs (Decidable (_ ∧ _))

/-- Every choice that is applied is clean. -/
def CleanRun (context : ChatContext) (s : ChatStreamState) : List SseEvent → Prop
  | .chunk chunk :: inputs => CleanChoices context (s.receive chunk) chunk.choices ∧
      match s.applyChunk context chunk with
      | (s, _, .ok false) => CleanRun context s inputs
      | _ => True
  | .unparsed :: inputs => CleanRun context s inputs
  | _ => True

instance decidableCleanRun (context : ChatContext) : (s : ChatStreamState) →
    (inputs : List SseEvent) → Decidable (CleanRun context s inputs)
  | s, .chunk chunk :: inputs =>
    have : Decidable (match s.applyChunk context chunk with
        | (s, _, .ok false) => CleanRun context s inputs
        | _ => True) :=
      match s.applyChunk context chunk with
      | (s, _, .ok false) => decidableCleanRun context s inputs
      | (_, _, .ok true) => .isTrue trivial
      | (_, _, .error _) => .isTrue trivial
    inferInstanceAs (Decidable (_ ∧ _))
  | s, .unparsed :: inputs => decidableCleanRun context s inputs
  | _, [] => .isTrue trivial
  | _, .done :: _ => .isTrue trivial
  | _, .error _ :: _ => .isTrue trivial
  | _, .transportError _ :: _ => .isTrue trivial
  | _, .idleTimeout :: _ => .isTrue trivial

variable {o : OpenItems}

namespace ChatStreamState

variable {s : ChatStreamState}

/-- **The invariant.**  After a finish reason nothing is open. -/
structure Orderly (s : ChatStreamState) : Prop extends s.Settled where
  closed : s.finished = true → s.openItems = .nothing

theorem pushReasoning_setText (s : ChatStreamState) (text : Option String) :
    (s.pushReasoning text).1.openItems.setText .reasoning none = s.openItems.setText .reasoning none := by
  rcases htext : nonEmpty text with - | content
  · simp [pushReasoning, htext]
  · simp [pushReasoning, htext]
    rw [openItems_reasoning s (s.reasoning.push ChatStream.reasoning content).1]
    simp [setText]

theorem setText_of_none {slot : Slot} (h : o.text slot = none) : o.setText slot none = o := by
  ext other
  · by_cases heq : other = slot
    · subst heq
      simp [setText, h]
    · simp [setText, heq]
  · rfl

/-- A delta that opens nothing. -/
theorem Settled.applyDelta_nothing (h : s.Settled) (hopen : s.openItems = .nothing) {delta : ChatDelta}
    (hdelta : delta.OpensNothing) : (s.applyDelta context delta).1.openItems = .nothing := by
  have htext : s.openItems.text .reasoning = none := by rw [hopen]; rfl
  have hthink : (s.think delta).1.openItems = s.openItems := by
    obtain ⟨hsettled, -⟩ := h.pushReasoning delta.reasoningContent
    unfold ChatStreamState.think
    simp only
    split
    · rw [hsettled.endReasoning.2.1, pushReasoning_setText, setText_of_none htext]
    · next hno =>
      have hnone := hdelta.reasoning.resolve_right hno
      simp [ChatStreamState.pushReasoning, hnone]
  have hsaid : (s.think delta).1.pushContent delta.content = ((s.think delta).1, []) := by
    simp [ChatStreamState.pushContent, hdelta.content]
  have hpending : AllPending s.toolCalls := by
    rw [← openCalls_eq_zero]
    exact congrArg OpenItems.calls hopen
  refine openItems_eq_nothing ?_ ?_
  · rw [applyDelta_toolCalls, openCalls_eq_zero]
    exact hpending.pushToolCalls h.calls hdelta.calls
  · rw [applyDelta_text, hsaid, hthink, hopen]
    rfl

/-- The state with the delta of a choice that has a finish reason. -/
def marked (context : ChatContext) (s : ChatStreamState) (choice : ChatChoice) : ChatStreamState :=
  { (s.applyDelta context choice.delta).1 with finished := true }

variable {choice : ChatChoice}

theorem applyChoice_finish (hreason : choice.finishReason = some finishReason)
    (hknown : finishReason = "stop" ∨ finishReason = "tool_calls") :
    s.applyChoice context choice =
      (((s.marked context choice).finishItems context finishReason).1,
        (s.applyDelta context choice.delta).2 ++
          ((s.marked context choice).finishItems context finishReason).2.1,
        ((s.marked context choice).finishItems context finishReason).2.2.map
          fun _ => some (decide (finishReason ≠ "tool_calls"))) := by
  unfold applyChoice
  simp only [hreason, if_pos hknown]
  rfl

theorem applyChoice_error (context : ChatContext) (s : ChatStreamState)
    (hreason : choice.finishReason = some finishReason)
    (hknown : ¬ (finishReason = "stop" ∨ finishReason = "tool_calls")) :
    ∃ error, s.applyChoice context choice = ((s.applyDelta context choice.delta).1,
      (s.applyDelta context choice.delta).2, .error error) := by
  unfold applyChoice
  simp only [hreason, if_neg hknown]
  split <;> exact ⟨_, rfl⟩

theorem finishItems_finished (s : ChatStreamState) (finishReason : String) :
    (s.finishItems context finishReason).1.finished = s.finished := by
  unfold finishItems
  simp only
  split <;> rfl

/-- What holds of a state after the events sent on the way to it. -/
def Reached (o : OpenItems) (events : List Sent) (s : ChatStreamState) : Prop :=
  s.Orderly ∧ Sends o events s.openItems

/-- **One choice.**  It keeps the invariant, or fails. -/
theorem Orderly.applyChoice (h : s.Orderly) (hclean : CleanChoice context s choice) :
    (∃ o, Sends s.openItems (s.applyChoice context choice).2.1 o) ∧
    ∀ completed, (s.applyChoice context choice).2.2 = .ok completed →
      Reached s.openItems (s.applyChoice context choice).2.1 (s.applyChoice context choice).1 ∧
      (completed.isSome → (s.applyChoice context choice).1.finished) := by
  obtain ⟨hsettled, hsends⟩ := h.toSettled.applyDelta hclean.keepIds
  rcases hreason : choice.finishReason with - | finishReason
  · have hstep : s.applyChoice context choice = ((s.applyDelta context choice.delta).1,
        (s.applyDelta context choice.delta).2, .ok none) := by
      unfold ChatStreamState.applyChoice
      simp [hreason]
    rw [hstep]
    refine ⟨⟨_, hsends⟩, fun completed hok => ⟨⟨⟨hsettled, fun hfinished => ?_⟩, hsends⟩, fun hsome => ?_⟩⟩
    · rw [applyDelta_finished] at hfinished
      exact h.toSettled.applyDelta_nothing (h.closed hfinished) (hclean.afterFinish hreason hfinished)
    · cases hok
      cases hsome
  · have hmarked : (s.marked context choice).Settled :=
      ⟨hsettled.content, hsettled.reasoning, hsettled.calls⟩
    have hopen : Sends s.openItems (s.applyDelta context choice.delta).2
        (s.marked context choice).openItems := hsends
    rcases eq_or_ne finishReason "tool_calls" with rfl | hcalls
    · rw [applyChoice_finish hreason (.inr rfl)]
      obtain ⟨hdone, hnothing, o, hcloses, hall⟩ := hmarked.finishItems_calls context
      refine ⟨⟨o, hopen.append hcloses⟩, fun completed hok => ⟨⟨⟨hdone, fun _ => hnothing⟩, ?_⟩, fun _ => ?_⟩⟩
      · obtain ⟨⟨⟩, hresult, -⟩ := map_eq_ok.mp hok
        rw [hall hresult] at hcloses
        rw [hnothing]
        exact hopen.append hcloses
      · exact finishItems_finished _ _
    · rcases eq_or_ne finishReason "stop" with rfl | hstop
      · rw [applyChoice_finish hreason (.inl rfl)]
        obtain ⟨hdone, hitems, hcloses, -⟩ := hmarked.finishItems_texts context hcalls
        refine ⟨⟨_, hopen.append hcloses⟩, fun completed _ =>
          ⟨⟨⟨hdone, fun _ => ?_⟩, hopen.append hcloses⟩, fun _ => finishItems_finished _ _⟩⟩
        -- no call is open, so closing the texts closes everything
        obtain ⟨hpending, hnames⟩ := hclean.stops hreason
        have hcalls' : openCalls (s.marked context choice).toolCalls = 0 := by
          show openCalls (s.applyDelta context choice.delta).1.toolCalls = 0
          rw [applyDelta_toolCalls, openCalls_eq_zero]
          exact hpending.pushToolCalls h.calls hnames
        rw [hitems, hcalls']
        rfl
      · -- any other reason is an error
        obtain ⟨error, hstep⟩ := applyChoice_error context s hreason (not_or.mpr ⟨hstop, hcalls⟩)
        rw [hstep]
        exact ⟨⟨_, hsends⟩, fun _ hok => by cases hok⟩

theorem applyChoice_keeps_finished (context : ChatContext) (h : s.finished) (choice : ChatChoice) :
    (s.applyChoice context choice).1.finished := by
  rcases hreason : choice.finishReason with - | finishReason
  · unfold applyChoice
    simp only [hreason]
    rw [applyDelta_finished, h]
  · by_cases hknown : finishReason = "stop" ∨ finishReason = "tool_calls"
    · rw [applyChoice_finish hreason hknown]
      exact finishItems_finished _ _
    · obtain ⟨error, hstep⟩ := applyChoice_error context s hreason hknown
      rw [hstep, applyDelta_finished, h]

/-- **The choices of a chunk.** -/
theorem Orderly.applyChoices (h : s.Orderly) {completed : Bool}
    (hcompleted : completed → s.finished) {choices : List ChatChoice}
    (hclean : CleanChoices context s choices) :
    (∃ o, Sends s.openItems (s.applyChoices context completed choices).2.1 o) ∧
    ∀ last, (s.applyChoices context completed choices).2.2 = .ok last →
      Reached s.openItems (s.applyChoices context completed choices).2.1
        (s.applyChoices context completed choices).1 ∧
      (last → (s.applyChoices context completed choices).1.finished) := by
  induction choices generalizing s completed with
  | nil =>
    refine ⟨⟨_, .nil _⟩, fun last hlast => ⟨⟨h, .nil _⟩, fun htrue => hcompleted ?_⟩⟩
    rw [← htrue]
    exact Except.ok.inj hlast
  | cons choice choices ih =>
    obtain ⟨hchoice, hrest⟩ := hclean
    obtain ⟨⟨o, hsends⟩, hok⟩ := h.applyChoice hchoice
    rcases hstep : s.applyChoice context choice with ⟨s₁, events, error | last⟩
    · -- the choice fails
      rw [hstep] at hsends
      have hchoices : s.applyChoices context completed (choice :: choices) =
          (s₁, events, .error error) := by
        rw [ChatStreamState.applyChoices, hstep]
      rw [hchoices]
      exact ⟨⟨o, hsends⟩, fun _ hlast => by cases hlast⟩
    · rw [hstep] at hok hrest
      obtain ⟨⟨horderly, hreached⟩, hfinished⟩ := hok last rfl
      have hcompleted₁ : last.getD completed = true → s₁.finished = true := by
        rcases last with - | last
        · intro htrue
          have hkept := applyChoice_keeps_finished context (hcompleted htrue) choice
          rwa [hstep] at hkept
        · exact fun _ => hfinished rfl
      obtain ⟨⟨o₁, hsends₁⟩, hok₁⟩ := ih horderly hcompleted₁ hrest
      have hchoices : s.applyChoices context completed (choice :: choices) =
          ((s₁.applyChoices context (last.getD completed) choices).1,
            events ++ (s₁.applyChoices context (last.getD completed) choices).2.1,
            (s₁.applyChoices context (last.getD completed) choices).2.2) := by
        rw [ChatStreamState.applyChoices, hstep]
      rw [hchoices]
      refine ⟨⟨o₁, hreached.append hsends₁⟩, fun final hfinal => ?_⟩
      obtain ⟨⟨horderly₁, hreached₁⟩, hfinished₁⟩ := hok₁ final hfinal
      exact ⟨⟨horderly₁, hreached.append hreached₁⟩, hfinished₁⟩

/-- The end of the stream closes what is open. -/
theorem Orderly.finishFromDone (h : s.Orderly) (context : ChatContext) :
    ∃ o, Sends s.openItems (s.finishFromDone context).2.1 o ∧
      ((s.finishFromDone context).2.2 = .ok () → o = .nothing) := by
  unfold ChatStreamState.finishFromDone
  split
  · next hfinished => exact ⟨s.openItems, .nil _, fun _ => h.closed hfinished⟩
  have hmarked : { s with finished := true }.Settled := ⟨h.content, h.reasoning, h.calls⟩
  by_cases hempty : s.toolCalls.isEmpty = true
  · have hcalls : openCalls s.toolCalls = 0 := by
      have hnil : s.toolCalls.toList = [] := by
        rw [← List.isEmpty_iff, Std.TreeMap.isEmpty_toList, hempty]
      rw [openCalls, hnil]
      rfl
    simp only [hempty, if_true]
    obtain ⟨-, hitems, hcloses, -⟩ := hmarked.finishItems_texts context (by decide : "stop" ≠ "tool_calls")
    refine ⟨_, hcloses, fun _ => ?_⟩
    rw [hitems]
    rw [hcalls]
    rfl
  · simp [hempty]
    obtain ⟨-, -, o, hcloses, hall⟩ := hmarked.finishItems_calls context
    exact ⟨o, hcloses, hall⟩

/-- **One chunk.** -/
theorem Orderly.applyChunk (h : s.Orderly) {chunk : ChatChunk}
    (hclean : CleanChoices context (s.receive chunk) chunk.choices) :
    (∃ o, Sends s.openItems (s.applyChunk context chunk).2.1 o) ∧
    ∀ last, (s.applyChunk context chunk).2.2 = .ok last →
      Reached s.openItems (s.applyChunk context chunk).2.1 (s.applyChunk context chunk).1 ∧
      (last → (s.applyChunk context chunk).1.finished) := by
  have hreceived : (s.receive chunk).Orderly := ⟨⟨h.content, h.reasoning, h.calls⟩, h.closed⟩
  have hnot : false = true → (s.receive chunk).finished = true := fun h => by cases h
  obtain ⟨hsends, hok⟩ := hreceived.applyChoices hnot hclean
  refine ⟨hsends, fun last hlast => ?_⟩
  obtain ⟨completed, hresult, rfl⟩ := map_eq_ok.mp hlast
  obtain ⟨hreached, hfinished⟩ := hok completed hresult
  exact ⟨hreached, fun htrue => hfinished (Bool.and_eq_true_iff.mp htrue).1⟩

end ChatStreamState

/-! ### The stream -/

theorem wellBracketed_error {events : List Sent} (h : Sends .nothing events o)
    (error : ApiError) : WellBracketed (events ++ [.error error]) :=
  ⟨events, .error error, rfl, rfl, h.not_terminal, fun ⟨_, _, _, heq⟩ => by cases heq⟩

theorem wellBracketed_complete {events : List Sent} (h : Sends .nothing events .nothing)
    (s : ChatStreamState) : WellBracketed (events ++ s.complete) :=
  ⟨events, _, rfl, rfl, h.not_terminal, fun _ => h⟩

open ChatStreamState in
/-- **A run.**  After the events `sent`, the rest of a clean stream ends well. -/
theorem process_wellBracketed {s : ChatStreamState} {sent : List Sent} {inputs : List SseEvent}
    (h : Reached .nothing sent s) (hclean : CleanRun context s inputs) :
    WellBracketed (sent ++ process context s inputs) := by
  obtain ⟨horderly, hsent⟩ := h
  induction inputs generalizing s sent with
  | nil =>
    rw [process]
    split
    · next hfinished =>
      rw [horderly.closed hfinished] at hsent
      exact wellBracketed_complete hsent s
    · exact wellBracketed_error hsent _
  | cons input inputs ih =>
    cases input with
    | transportError | idleTimeout | error => exact wellBracketed_error hsent _
    | unparsed => exact ih hclean horderly hsent
    | done =>
      obtain ⟨o, hcloses, hall⟩ := horderly.finishFromDone context
      rcases hdone : s.finishFromDone context with ⟨s₁, events, error | ⟨⟩⟩
      · rw [hdone] at hcloses
        rw [process, hdone]
        rw [← append_assoc]
        exact wellBracketed_error (hsent.append hcloses) error
      · rw [hdone] at hcloses hall
        rw [hall rfl] at hcloses
        rw [process, hdone]
        rw [← append_assoc]
        exact wellBracketed_complete (hsent.append hcloses) s₁
    | chunk chunk =>
      obtain ⟨hchoices, hrest⟩ := hclean
      obtain ⟨⟨o, hsends⟩, hok⟩ := horderly.applyChunk hchoices
      rcases hstep : s.applyChunk context chunk with ⟨s₁, events, error | (- | -)⟩
      · rw [hstep] at hsends
        rw [process, hstep]
        rw [← append_assoc]
        exact wellBracketed_error (hsent.append hsends) error
      · rw [hstep] at hok hrest
        obtain ⟨⟨horderly₁, hreached⟩, -⟩ := hok false rfl
        rw [process, hstep]
        rw [← append_assoc]
        exact ih hrest horderly₁ (hsent.append hreached)
      · rw [hstep] at hok
        obtain ⟨⟨horderly₁, hreached⟩, hfinished⟩ := hok true rfl
        have hclosed : s₁.openItems = .nothing := horderly₁.closed (hfinished rfl)
        have hreached₁ : Sends s.openItems events s₁.openItems := hreached
        rw [hclosed] at hreached₁
        rw [process, hstep]
        rw [← append_assoc]
        exact wellBracketed_complete (hsent.append hreached₁) s₁

theorem start_reached : ChatStreamState.Reached .nothing [.ok (.created none)] .start := by
  have hopen : ChatStreamState.start.openItems = .nothing := by
    ext slot
    · cases slot <;> rfl
    · rfl
  refine ⟨⟨⟨TextAccumulator.empty_settled, empty_settled, fun _ h => by cases h⟩,
    fun _ => hopen⟩, ?_⟩
  rw [hopen]
  exact .single (.created none)

/-- **The Chat stream.**  Along a clean run the events are well bracketed. -/
theorem processChatSse_wellBracketed (context : ChatContext) (inputs : List SseEvent)
    (hclean : CleanRun context .start inputs) : WellBracketed (processChatSse context inputs) :=
  process_wellBracketed start_reached hclean

def plainContext : ChatContext := ⟨fun _ => none, id⟩

def textChunk (content : String) : ChatChunk := ⟨some "r", [⟨⟨some content, none, none⟩, none⟩], none⟩

def callChunk : ChatChunk :=
  ⟨some "r", [⟨⟨none, none, some [⟨0, some "c", some ⟨some "f", none⟩⟩]⟩, none⟩], none⟩

def finishChunk (finishReason : String) : ChatChunk :=
  ⟨some "r", [⟨⟨none, none, none⟩, some finishReason⟩], none⟩

/-- A tool call that is finished with its reason, after some text. -/
theorem finishedCall_wellBracketed :
    WellBracketed (processChatSse plainContext
      [.chunk (textChunk "a"), .chunk callChunk, .chunk (finishChunk "tool_calls"), .done]) := by
  exact processChatSse_wellBracketed plainContext _ (by decide)

theorem Brackets.card_of_added {o' : OpenItems} {item : ResponseItem}
    (h : Brackets o (.outputItemAdded item) o') (hcall : item.toolCallId.isSome) :
    o'.calls.card = o.calls.card + 1 := by
  generalize hevent : ResponseEvent.outputItemAdded item = event at h
  cases h with
  | textAdded slot =>
    cases slot <;> cases hevent <;> cases hcall
  | textDelta slot => cases slot <;> cases hevent
  | callAdded => exact Multiset.card_cons ..
  | _ => cases hevent

/-- **A call left open.**  A tool call that is finished with "stop" is added and never done, and
the response completes. -/
theorem stoppedCall_not_wellBracketed :
    ¬ WellBracketed (processChatSse plainContext
      [.chunk callChunk, .chunk (finishChunk "stop"), .done]) := by
  have hevents : processChatSse plainContext [.chunk callChunk, .chunk (finishChunk "stop"), .done] =
      [.ok (.created none), .ok (.outputItemAdded (.functionCall none "f" none "" "c"))] ++
        [.ok (.completed "r" none none)] := by
    decide
  rintro ⟨init, last, heq, -, -, hsends⟩
  rw [hevents] at heq
  obtain ⟨rfl, hlast⟩ := append_inj' heq rfl
  have hclosed := hsends ⟨_, _, _, (List.cons.inj hlast).1.symm⟩
  rcases hclosed with - | ⟨hcreated, - | ⟨hadded, hnil⟩⟩
  have hcard := hadded.card_of_added rfl
  cases hnil
  cases hcard

end ChatStream

end CodexPlus
