/-
CodexPlus/ChatConserve.lean

The Chat Completions projection keeps the conversation.

An `Entry` is what an item brings to the conversation: a call, an output with its inline
images, the texts of a message.  An `Origin` is a message together with where it comes from;
images of tool outputs have a message of their own, with one bundle for each output.
While the converter runs, the entries of its messages and of the assistant message that it
holds back are those of the items read so far (`Tracks`), in order within each kind, and
the images that it holds back are those of outputs whose message has none yet.
-/
import CodexPlus.ChatGroups

namespace CodexPlus

open List

namespace Chat

open CallGroups

/-! ### Entries -/

inductive Kind where
  | tool
  | user
  | system
  | assistant
  deriving DecidableEq, Repr

inductive Entry where
  | call (id : String)
  | output (id : String) (images : List ChatContentPart)
  | user (texts : List String) (images : List ChatContentPart)
  | system (texts : List String)
  | assistant (text : String)
  deriving DecidableEq, Repr

def Entry.kind : Entry → Kind
  | .call _ | .output _ _ => .tool
  | .user _ _ => .user
  | .system _ => .system
  | .assistant _ => .assistant

/-- The same entries in the same order, within each kind. -/
def SameKinds (entries entries' : List Entry) : Prop :=
  ∀ kind, entries.filter (·.kind = kind) = entries'.filter (·.kind = kind)

def contentTexts (content : List ContentItem) : List String :=
  content.filterMap fun
    | .inputText text | .outputText text => some text
    | _ => none

def contentImages (content : List ContentItem) : List ChatContentPart :=
  content.filterMap fun
    | .inputImage (.inline imageUrl) detail => some (.imageUrl imageUrl detail)
    | _ => none

def outputImages : FunctionCallOutputBody → List ChatContentPart
  | .text _ => []
  | .contentItems items => items.filterMap fun
    | .inputImage (.inline imageUrl) detail => some (.imageUrl imageUrl detail)
    | _ => none

/-- What an item brings to the conversation. -/
def entry : ResponseItem → Option Entry
  | .message _ role content =>
    if role = "developer" ∨ role = "system" then some (.system (contentTexts content))
    else if role = "assistant" then some (.assistant ("\n".intercalate (contentTexts content)))
    else some (.user (contentTexts content) (contentImages content))
  | .functionCall _ _ _ _ callId => some (.call callId)
  | .customToolCall _ callId _ _ _ => some (.call callId)
  | .localShellCall _ (some callId) _ => some (.call callId)
  | .toolSearchCall _ (some callId) _ _ => some (.call callId)
  | .functionCallOutput _ (some callId) _ _ output _ =>
    some (.output callId (outputImages output.body))
  | .customToolCallOutput _ callId _ output _ => some (.output callId (outputImages output.body))
  | .toolSearchOutput _ (some callId) _ execution _ _ =>
    if execution = "client" then some (.output callId []) else none
  | .compaction _ encryptedContent => some (.system [encryptedContent])
  | .contextCompaction _ (some encryptedContent) => some (.system [encryptedContent])
  | _ => none

/-! ### Origins -/

def ChatContent.texts : ChatContent → List String
  | .text content => [content]
  | .parts content => content.filterMap fun
    | .text content => some content
    | .imageUrl _ _ => none

def ChatContent.images : ChatContent → List ChatContentPart
  | .text _ => []
  | .parts content => content.filter fun
    | .text _ => false
    | .imageUrl _ _ => true

/-- The images of one tool output. -/
structure Bundle where
  callId : String
  images : List ChatContentPart
  deriving DecidableEq, Repr

def Bundle.parts (bundle : Bundle) : List ChatContentPart :=
  .text ("Images returned by tool call `" ++ bundle.callId ++ "`:") :: bundle.images

/-- A message and where it comes from. -/
inductive Origin where
  | system (texts : List String)
  | user (content : ChatContent)
  | assistant (texts : List String) (reasoning : Option String) (calls : List ChatToolCall)
  | tool (callId content : String) (images : List ChatContentPart)
  | images (bundles : List Bundle)
  deriving DecidableEq, Repr

/-- The texts that one assistant message joins. -/
def joinTexts (texts : List String) : String := "\n".intercalate (texts.filter (· ≠ ""))

namespace Origin

def message : Origin → ChatMessage
  | .system texts => .system ("\n".intercalate texts)
  | .user content => .user content
  | .assistant texts reasoning calls => .assistant (joinTexts texts) reasoning calls
  | .tool callId content _ => .tool callId content
  | .images delivered => .user (.parts (delivered.flatMap Bundle.parts))

def entries : Origin → List Entry
  | .system texts => [.system texts]
  | .user content => [.user content.texts content.images]
  | .assistant texts _ calls => texts.map Entry.assistant ++ calls.map (Entry.call ·.id)
  | .tool callId _ outputImages => [.output callId outputImages]
  | .images _ => []

/-- The images that a message delivers. -/
def bundles : Origin → List Bundle
  | .images delivered => delivered
  | _ => []

/-- The images of a tool output. -/
def owed : Origin → Option Bundle
  | .tool callId _ outputImages =>
    if outputImages = [] then none else some ⟨callId, outputImages⟩
  | _ => none

end Origin

/-- Images go out when every call is answered, and then all that are owed. -/
def Delivers (before : List Origin) (bundles : List Bundle) : Prop :=
  before.flatMap Origin.bundles ++ bundles = before.filterMap Origin.owed ∧
    openAfter (before.map Origin.message) = some []

/-! ### Contents -/

theorem functionOutputToChatContent_images (body : FunctionCallOutputBody) :
    (functionOutputToChatContent body).2 = outputImages body := by
  rcases body with text | items
  · rfl
  rw [functionOutputToChatContent]
  split
  all_goals
    refine filterMap_congr fun item _ => ?_
    rcases item with - | ⟨image, -⟩ | - | -
    · rfl
    · cases image <;> rfl
    · rfl
    · rfl

/-- Parts as a content: a single text is a text of its own. -/
def asContent : List ChatContentPart → ChatContent
  | [.text text] => .text text
  | parts => .parts parts

def contentPart : ContentItem → Option ChatContentPart
  | .inputText text | .outputText text => some (.text text)
  | .inputImage image detail => imagePart image detail
  | .inputAudio _ => none

open ChatContent

theorem asContent_keeps (parts : List ChatContentPart) :
    (asContent parts).texts = texts (.parts parts) ∧
      (asContent parts).images = images (.parts parts) := by
  unfold asContent
  split <;> exact ⟨rfl, rfl⟩

/-- A message keeps its texts and its inline images. -/
theorem chatContentFromItems_keeps (content : List ContentItem) :
    (chatContentFromItems content).texts = contentTexts content ∧
      (chatContentFromItems content).images = contentImages content := by
  have heq : chatContentFromItems content = asContent (content.filterMap contentPart) := rfl
  rw [heq, (asContent_keeps _).1, (asContent_keeps _).2]
  constructor
  · rw [texts, filterMap_filterMap]
    refine filterMap_congr fun item _ => ?_
    rcases item with - | ⟨image, -⟩ | - | -
    · rfl
    · cases image <;> rfl
    · rfl
    · rfl
  · rw [images, filter_filterMap]
    refine filterMap_congr fun item _ => ?_
    rcases item with - | ⟨image, -⟩ | - | -
    · rfl
    · cases image <;> rfl
    · rfl
    · rfl

theorem intoText_eq (content : ChatContent) : content.intoText = "\n".intercalate content.texts := by
  rcases content with text | parts
  · rfl
  · rfl

variable (text : String)

theorem intercalate_concat_of_ne_nil {texts : List String} (h : texts ≠ []) :
    "\n".intercalate (texts ++ [text]) = "\n".intercalate texts ++ "\n" ++ text := by
  rw [String.intercalate_append_of_ne_nil h (cons_ne_nil _ _), String.intercalate_singleton]

theorem joinTexts_concat (texts : List String) (text : String) :
    joinTexts (texts ++ [text]) =
      if text = "" then joinTexts texts
      else if texts.filter (· ≠ "") = [] then text
      else joinTexts texts ++ "\n" ++ text := by
  rw [joinTexts, filter_append]
  by_cases htext : text = ""
  · rw [if_pos htext, filter_cons_of_neg (by simpa using htext), filter_nil, append_nil]
    rfl
  · rw [if_neg htext, filter_cons_of_pos (by simpa using htext), filter_nil]
    split
    · next hnil =>
      rw [hnil]
      rfl
    · next hne => exact intercalate_concat_of_ne_nil text hne

/-- Only what has no text joins to nothing. -/
theorem joinTexts_eq_empty_iff (texts : List String) :
    joinTexts texts = "" ↔ texts.filter (· ≠ "") = [] := by
  constructor
  · intro h
    induction texts using List.reverseRecOn with
    | nil => rfl
    | append_singleton _ text ih =>
      rw [joinTexts_concat] at h
      by_cases htext : text = ""
      · rw [if_pos htext] at h
        rw [filter_append, ih h, filter_cons_of_neg (by simpa using htext)]
        rfl
      · rw [if_neg htext] at h
        split at h
        · exact absurd h htext
        · simp at h
  · intro h
    rw [joinTexts, h]
    rfl

open Converter

/-- Joining a text to what is held back. -/
theorem joinText_getD {existing : Option String} {texts : List String}
    (h : existing.getD "" = joinTexts texts) :
    (joinText existing text).getD "" = joinTexts (texts ++ [text]) := by
  rw [joinTexts_concat]
  rcases existing with - | existing
  · have hnil := (joinTexts_eq_empty_iff texts).mp h.symm
    by_cases htext : text = ""
    · rw [joinText, if_neg (not_not.mpr htext), if_pos htext]
      exact h
    · rw [joinText, if_pos htext, if_neg htext, if_pos hnil]
      rfl
  · have hexisting : existing = joinTexts texts := h
    simp only [joinText, ← joinTexts_eq_empty_iff, ← hexisting]
    by_cases htext : text = ""
    · rw [if_neg fun hboth => hboth.2 htext, if_pos htext]
      split
      · next hempty => rw [hempty, htext]; rfl
      · rfl
    · rw [if_neg htext]
      by_cases hempty : existing = ""
      · rw [if_neg fun hboth => hboth.1 hempty, if_pos hempty, if_pos hempty]
        rfl
      · rw [if_pos ⟨hempty, htext⟩, if_neg hempty]
        rfl

/-! ### The converter and the entries -/

theorem SameKinds.refl (entries : List Entry) : SameKinds entries entries := fun _ => rfl

theorem SameKinds.append {l l' m m' : List Entry} (h : SameKinds l l') (h' : SameKinds m m') :
    SameKinds (l ++ m) (l' ++ m') := by
  intro kind
  rw [filter_append, filter_append, h kind, h' kind]

/-- The entries of the assistant message that is held back. -/
def heldEntries (texts : List String) (calls : List ChatToolCall) : List Entry :=
  texts.map Entry.assistant ++ calls.map (Entry.call ·.id)

/-- The converter has turned `entries` into the messages of `origins`; it holds back an assistant
message with `texts` and the images of `bundles`. -/
structure Tracks (entries : List Entry) (c : Converter) (origins : List Origin)
    (texts : List String) (bundles : List Bundle) : Prop where
  messages : c.messages = origins.map Origin.message
  content : c.pendingAssistantContent.getD "" = joinTexts texts
  noTexts : c.pendingToolCalls = [] → c.pendingAssistantContent = none → texts = []
  entries : SameKinds (origins.flatMap Origin.entries ++ heldEntries texts c.pendingToolCalls) entries
  images : c.pendingToolOutputImages = bundles.flatMap Bundle.parts
  owed : origins.flatMap Origin.bundles ++ bundles = origins.filterMap Origin.owed
  delivers : ∀ before delivered after, origins = before ++ .images delivered :: after →
    Delivers before delivered

variable {entries : List Entry} {c : Converter} {origins : List Origin} {texts : List String}
  {bundles : List Bundle} (origin : Origin)

theorem delivers_concat
    (h : ∀ before delivered after, origins = before ++ .images delivered :: after →
      Delivers before delivered)
    (hlast : ∀ delivered, origin = .images delivered → Delivers origins delivered) :
    ∀ before delivered after, origins ++ [origin] = before ++ .images delivered :: after →
      Delivers before delivered := by
  intro before delivered after heq
  rcases eq_nil_or_concat' after with rfl | ⟨init, last, rfl⟩
  · obtain ⟨rfl, hlast'⟩ := append_inj' heq rfl
    exact hlast delivered (singleton_inj.mp hlast')
  · rw [← cons_append, ← append_assoc] at heq
    exact h before delivered init (append_inj' heq rfl).1

theorem tracks_new : Tracks [] .new [] [] [] :=
  ⟨rfl, rfl, fun _ _ => rfl, fun _ => rfl, rfl, rfl, fun before delivered after heq => by
    simp at heq⟩

theorem owed_concat {origin : Origin} (howed : origin.owed = none) :
    (origins ++ [origin]).filterMap Origin.owed = origins.filterMap Origin.owed := by
  rw [filterMap_append, filterMap_cons_none howed, filterMap_nil, append_nil]

/-- With nothing held back a message adds its entries. -/
theorem Tracks.entries_concat (h : Tracks entries c origins [] bundles)
    (hcalls : c.pendingToolCalls = []) (origin : Origin) {entry : Entry}
    (hentry : origin.entries = [entry]) :
    SameKinds ((origins ++ [origin]).flatMap Origin.entries ++ heldEntries [] c.pendingToolCalls)
      (entries ++ [entry]) := by
  have hentries := h.entries
  have hheld : heldEntries [] c.pendingToolCalls = [] := by
    rw [hcalls]
    rfl
  rw [hheld, append_nil] at hentries
  rw [hheld, append_nil, flatMap_append, flatMap_singleton, hentry]
  exact hentries.append (.refl _)

/-- A message with entries of its own, behind everything. -/
theorem Tracks.push (h : Tracks entries c origins [] bundles) (hcalls : c.pendingToolCalls = [])
    {origin : Origin} {entry : Entry} (hentry : origin.entries = [entry])
    (hbundles : origin.bundles = []) (howed : origin.owed = none) :
    Tracks (entries ++ [entry]) (c.push origin.message) (origins ++ [origin]) [] bundles := by
  refine ⟨?_, h.content, h.noTexts, ?_, h.images, ?_, delivers_concat _ h.delivers ?_⟩
  · show c.messages ++ [_] = _
    rw [h.messages, map_append]
    rfl
  · exact h.entries_concat hcalls origin hentry
  · rw [flatMap_append, flatMap_singleton, hbundles, append_nil, owed_concat howed]
    exact h.owed
  · rintro delivered rfl
    cases hentry

/-- Sending the assistant message that is held back. -/
theorem Tracks.flush (h : Tracks entries c origins texts bundles) :
    ∃ origins', Tracks entries c.flushPendingAssistant origins' [] bundles ∧
      c.flushPendingAssistant.pendingToolCalls = [] := by
  by_cases hold : c.Holding
  · rw [flush_eq hold]
    refine ⟨origins ++ [.assistant texts c.pendingReasoning c.pendingToolCalls],
      ⟨?_, rfl, fun _ _ => rfl, ?_, h.images, ?_, delivers_concat _ h.delivers nofun⟩, rfl⟩
    · rw [map_append, ← h.messages, h.content]
      rfl
    · rw [flatMap_append, flatMap_singleton]
      show SameKinds (_ ++ heldEntries texts c.pendingToolCalls ++ []) entries
      rw [append_nil]
      exact h.entries
    · rw [owed_concat rfl, flatMap_append]
      simpa [Origin.bundles] using h.owed
  · rw [flush_eq_self hold]
    simp only [Converter.Holding, not_or, not_not] at hold
    obtain rfl := h.noTexts hold.1 hold.2.2
    exact ⟨origins, h, hold.1⟩

/-- Images go out when no call is open. -/
theorem Tracks.flushImages (h : Tracks entries c origins texts bundles)
    (hopen : c.unmatchedToolCalls = [] → openAfter c.messages = some []) :
    ∃ origins' bundles', Tracks entries c.flushPendingToolOutputImages origins' texts bundles' ∧
      (c.unmatchedToolCalls = [] → bundles' = []) := by
  rw [flushPendingToolOutputImages]
  split
  · next hkeep =>
    refine ⟨origins, bundles, h, fun hmatched => ?_⟩
    have hnone : c.pendingToolOutputImages = [] := by simpa [hmatched] using hkeep
    rw [h.images, flatMap_eq_nil_iff] at hnone
    exact eq_nil_iff_forall_not_mem.mpr fun bundle hmem => by
      simpa [Bundle.parts] using hnone bundle hmem
  · next hsend =>
    simp only [Bool.or_eq_true, not_or, Bool.not_eq_true', Bool.not_eq_true] at hsend
    have hmatched : c.unmatchedToolCalls = [] := by simpa using hsend.2
    refine ⟨origins ++ [.images bundles], [],
      ⟨?_, h.content, h.noTexts, ?_, rfl, ?_, delivers_concat _ h.delivers ?_⟩,
      fun _ => rfl⟩
    · rw [map_append, ← h.messages, h.images]
      rfl
    · rw [flatMap_append, flatMap_singleton, Origin.entries, append_nil]
      exact h.entries
    · rw [owed_concat rfl, flatMap_append]
      simpa [Origin.bundles] using h.owed
    · rintro delivered ⟨⟩
      exact ⟨h.owed, h.messages ▸ hopen hmatched⟩

theorem pendingToolCalls_flushImages (c : Converter) :
    c.flushPendingToolOutputImages.pendingToolCalls = c.pendingToolCalls := by
  unfold flushPendingToolOutputImages
  split
  · rfl
  · rfl

theorem Tracks.pushCall (h : Tracks entries c origins texts bundles) (call : ChatToolCall) :
    Tracks (entries ++ [.call call.id]) (c.pushCall call) origins texts bundles := by
  refine ⟨h.messages, h.content, fun hcalls => ?_, ?_, h.images, h.owed, h.delivers⟩
  · exact absurd hcalls (by simp [Converter.pushCall])
  · have hheld : heldEntries texts (c.pushCall call).pendingToolCalls =
        heldEntries texts c.pendingToolCalls ++ [.call call.id] := by
      simp [heldEntries, Converter.pushCall]
    rw [hheld, ← append_assoc]
    exact h.entries.append (.refl _)

theorem Tracks.pushTool (h : Tracks entries c origins [] bundles) (hcalls : c.pendingToolCalls = [])
    (callId content : String) (images : List ChatContentPart) :
    ∃ bundles', Tracks (entries ++ [.output callId images]) (c.pushTool callId content images)
      (origins ++ [.tool callId content images]) [] bundles' := by
  have hentries := h.entries_concat hcalls (.tool callId content images) rfl
  have hmessages : (c.pushTool callId content images).messages =
      (origins ++ [Origin.tool callId content images]).map Origin.message := by
    show c.messages ++ [_] = _
    rw [h.messages, map_append]
    rfl
  have hdelivers := delivers_concat (.tool callId content images) h.delivers nofun
  by_cases himages : images = []
  · refine ⟨bundles, hmessages, h.content, h.noTexts, hentries, ?_, ?_, hdelivers⟩
    · rw [← h.images, Converter.pushTool, himages]
      rfl
    · rw [owed_concat (by rw [Origin.owed, if_pos himages]), flatMap_append]
      simpa [Origin.bundles] using h.owed
  · refine ⟨bundles ++ [⟨callId, images⟩], hmessages, h.content, h.noTexts, hentries, ?_, ?_,
      hdelivers⟩
    · rw [flatMap_append, ← h.images, Converter.pushTool]
      simp [himages, Bundle.parts]
    · rw [flatMap_append, filterMap_append, ← h.owed]
      simp [Origin.bundles, Origin.owed, himages]

/-- An assistant text before the calls it joins, or behind them: no kind sees the difference. -/
theorem sameKinds_heldEntries (texts : List String) (text : String) (calls : List ChatToolCall) :
    SameKinds (heldEntries (texts ++ [text]) calls)
      (heldEntries texts calls ++ [.assistant text]) := by
  rw [heldEntries, heldEntries, map_append, append_assoc, append_assoc]
  refine (SameKinds.refl _).append fun kind => ?_
  rw [filter_append, filter_append]
  by_cases hkind : kind = .assistant
  · have hcalls : (calls.map (Entry.call ·.id)).filter (·.kind = kind) = [] := by
      refine filter_eq_nil_iff.mpr fun entry hmem => ?_
      obtain ⟨call, -, rfl⟩ := mem_map.mp hmem
      simp [Entry.kind, hkind]
    rw [hcalls, append_nil, nil_append]
    rfl
  · have htext : ([text].map Entry.assistant).filter (·.kind = kind) = [] := by
      simp [Entry.kind, Ne.symm hkind]
    have htext' : [Entry.assistant text].filter (·.kind = kind) = [] := htext
    rw [htext, htext', nil_append, append_nil]

theorem joinTexts_singleton : joinTexts [text] = text := by
  by_cases htext : text = ""
  · rw [htext]
    rfl
  · rw [joinTexts, filter_cons_of_pos (by simpa using htext)]
    rfl

section

variable (h : Tracks entries c origins texts bundles)
include h

theorem Tracks.pushAssistantText (text : String) :
    ∃ origins' texts', Tracks (entries ++ [.assistant text]) (c.pushAssistantText text) origins'
      texts' bundles := by
  rw [Converter.pushAssistantText]
  split
  · next hcalls =>
    -- the text joins the message of the calls
    refine ⟨origins, texts ++ [text], h.messages, joinText_getD text h.content,
      fun hnil => absurd hnil hcalls, fun kind => ?_, h.images, h.owed, h.delivers⟩
    have hheld := (SameKinds.refl (origins.flatMap Origin.entries)).append
      (sameKinds_heldEntries texts text c.pendingToolCalls)
    rw [← append_assoc] at hheld
    exact (hheld kind).trans (h.entries.append (.refl _) kind)
  · next hcalls =>
    have hnil : c.pendingToolCalls = [] := not_not.mp hcalls
    have hentries := h.entries.append (.refl [.assistant text])
    rcases hpending : c.pendingAssistantContent with - | content
    · obtain rfl := h.noTexts hnil hpending
      refine ⟨origins, [text], h.messages, (joinTexts_singleton text).symm,
        fun _ hnone => absurd hnone (Option.some_ne_none _), ?_, h.images, h.owed, h.delivers⟩
      rw [hnil] at hentries ⊢
      rw [append_assoc] at hentries
      exact hentries
    · -- a deferred message goes first
      refine ⟨origins ++ [.assistant texts c.pendingReasoning c.pendingToolCalls], [text], ?_,
        (joinTexts_singleton text).symm, fun _ hnone => absurd hnone (Option.some_ne_none _), ?_,
        h.images, ?_, delivers_concat _ h.delivers fun _ heq => by cases heq⟩
      · have hjoined := h.content
        rw [hpending] at hjoined
        have hjoined : content = joinTexts texts := hjoined
        rw [map_append, ← h.messages, hjoined]
        rfl
      · rw [flatMap_append, flatMap_singleton]
        exact hentries
      · rw [owed_concat rfl, flatMap_append]
        simpa [Origin.bundles] using h.owed

theorem Tracks.withReasoning (text : String) : Tracks entries { c with pendingReasoning := some text } origins texts bundles :=
  ⟨h.messages, h.content, h.noTexts, h.entries, h.images, h.owed, h.delivers⟩

theorem Tracks.pushReasoning (content : Option (List String)) :
    ∃ origins' texts', Tracks entries (c.pushReasoning content) origins' texts' bundles := by
  rw [Converter.pushReasoning]
  split
  · exact ⟨origins, texts, h⟩
  have hflushed : ∃ origins' texts',
      Tracks entries (if c.pendingToolCalls = [] ∧ c.pendingAssistantContent ≠ none then
        c.flushPendingAssistant else c) origins' texts' bundles := by
    split
    · obtain ⟨origins', hflush, -⟩ := h.flush
      exact ⟨origins', [], hflush⟩
    · exact ⟨origins, texts, h⟩
  obtain ⟨origins', texts', hflushed⟩ := hflushed
  rcases content with - | content
  · exact ⟨origins', texts', hflushed⟩
  · dsimp only
    split
    · exact ⟨origins', texts', hflushed⟩
    · exact ⟨origins', texts', hflushed.withReasoning _⟩

end

/-! ### Runs -/

def Tracked (entries : List Entry) (c : Converter) : Prop :=
  ∃ origins texts bundles, Tracks entries c origins texts bundles

theorem openAfter_of_matched {s : State String} (h : Simulates c (some s))
    (hmatched : c.unmatchedToolCalls = []) : openAfter c.messages = some [] := by
  rcases s with ids | opened
  · exact Collecting.checked h
  · have hnil := Draining.eq_nil_of_matched h hmatched
    subst hnil
    exact Draining.checked h

section

variable (h : Tracked entries c)
include h

/-- Sending what is held back and then a message with one entry. -/
theorem Tracked.flush_push (origin : Origin) {entry : Entry}
    (hentry : origin.entries = [entry]) (hbundles : origin.bundles = [])
    (howed : origin.owed = none) :
    Tracked (entries ++ [entry]) (c.flushPendingAssistant.push origin.message) := by
  obtain ⟨origins, texts, bundles, h⟩ := h
  obtain ⟨origins', hflush, hcalls⟩ := h.flush
  exact ⟨_, _, _, hflush.push hcalls hentry hbundles howed⟩

theorem Tracked.flush : Tracked entries c.flushPendingAssistant := by
  obtain ⟨origins, texts, bundles, h⟩ := h
  obtain ⟨origins', hflush, -⟩ := h.flush
  exact ⟨origins', _, _, hflush⟩

theorem Tracked.flush_pushTool (callId content : String) (images : List ChatContentPart) :
    Tracked (entries ++ [.output callId images])
      (c.flushPendingAssistant.pushTool callId content images) := by
  obtain ⟨origins, texts, bundles, h⟩ := h
  obtain ⟨origins', hflush, hcalls⟩ := h.flush
  obtain ⟨bundles', htool⟩ := hflush.pushTool hcalls callId content images
  exact ⟨_, _, bundles', htool⟩

theorem Tracked.pushCall (call : ChatToolCall) :
    Tracked (entries ++ [.call call.id]) (c.pushCall call) := by
  obtain ⟨origins, texts, bundles, h⟩ := h
  exact ⟨_, _, _, h.pushCall call⟩

end

variable (ser : Serializer)

/-- One item. -/
theorem Tracked.step {s : State String} (hs : Simulates c (some s))
    (h : Tracked entries c) (item : ResponseItem) :
    Tracked (entries ++ (entry item).toList) (c.step ser item) := by
  have hcut : Tracked (entries ++ []) c.flushPendingAssistant := by
    rw [append_nil]
    exact h.flush
  cases item with
  | message _ _ content =>
    obtain ⟨origins, texts, bundles, h⟩ := h
    obtain ⟨origins, bundles, himages, -⟩ := h.flushImages (openAfter_of_matched hs)
    obtain ⟨htexts, hkept⟩ := chatContentFromItems_keeps content
    rw [entry, Converter.step]
    split
    · rw [intoText_eq, htexts]
      exact Tracked.flush_push ⟨_, _, _, himages⟩ (.system _) rfl rfl rfl
    · split
      · rw [intoText_eq, htexts]
        obtain ⟨origins', texts', htext⟩ := himages.pushAssistantText
          ("\n".intercalate (contentTexts content))
        exact ⟨origins', texts', _, htext⟩
      · rw [← htexts, ← hkept]
        exact Tracked.flush_push ⟨_, _, _, himages⟩ (.user _) rfl rfl rfl
  | functionCallOutput _ callId =>
    rcases callId with - | callId
    · exact hcut
    · rw [entry, Converter.step, ← functionOutputToChatContent_images]
      exact h.flush_pushTool callId _ _
  | customToolCallOutput _ callId =>
    rw [entry, Converter.step, ← functionOutputToChatContent_images]
    exact h.flush_pushTool callId _ _
  | toolSearchOutput _ callId =>
    rcases callId with - | callId
    · exact hcut
    · rw [entry, Converter.step]
      split
      · exact h.flush_pushTool callId _ _
      · exact hcut
  | functionCall _ _ _ _ callId => exact h.pushCall ⟨callId, _, _⟩
  | customToolCall _ callId => exact h.pushCall ⟨callId, _, _⟩
  | localShellCall _ callId =>
    rcases callId with - | callId
    · exact hcut
    · exact h.pushCall ⟨callId, _, _⟩
  | toolSearchCall _ callId =>
    rcases callId with - | callId
    · exact hcut
    · exact h.pushCall ⟨callId, _, _⟩
  | reasoning _ content =>
    obtain ⟨origins, texts, bundles, h⟩ := h
    obtain ⟨origins', texts', hreasoning⟩ := h.pushReasoning content
    show Tracked (entries ++ []) _
    rw [append_nil]
    exact ⟨origins', texts', bundles, hreasoning⟩
  | compaction _ encryptedContent =>
    exact h.flush_push (.system [encryptedContent]) rfl rfl rfl
  | contextCompaction _ encryptedContent =>
    rcases encryptedContent with - | encryptedContent
    · exact hcut
    · exact h.flush_push (.system [encryptedContent]) rfl rfl rfl
  | _ => exact hcut

theorem Tracked.run {s s' : State String} (hs : Simulates c (some s))
    (h : Tracked entries c) {items : List ResponseItem}
    (hrun : run validId s (items.map wireToken) = some s') :
    Tracked (entries ++ items.filterMap entry) (items.foldl (Converter.step ser) c) := by
  induction items generalizing c s entries with
  | nil =>
    rw [filterMap_nil, append_nil]
    exact h
  | cons item items ih =>
    have hstep := (step_effect ser c item).simulates hs
    rw [Option.bind_some] at hstep
    rcases hnext : CallGroups.step validId s (wireToken item) with - | next
    · rw [map_cons, CallGroups.run, foldlM_cons, hnext] at hrun
      cases hrun
    rw [map_cons, CallGroups.run, foldlM_cons, hnext] at hrun
    rw [hnext] at hstep
    have hrest := ih hstep (h.step ser hs item) hrun
    rw [append_assoc] at hrest
    have hentries : (item :: items).filterMap entry =
        (entry item).toList ++ items.filterMap entry := by
      rcases hentry : entry item with - | e
      · rw [filterMap_cons_none hentry]
        rfl
      · rw [filterMap_cons_some hentry]
        rfl
    rw [hentries]
    exact hrest

/-- A call id or an output id. -/
inductive ToolId where
  | call (id : String)
  | output (id : String)
  deriving DecidableEq, Repr

def ChatMessage.toolIds : ChatMessage → List ToolId
  | .assistant _ _ calls => calls.map (ToolId.call ·.id)
  | .tool toolCallId _ => [.output toolCallId]
  | _ => []

def Entry.toolId : Entry → Option ToolId
  | .call id => some (.call id)
  | .output id _ => some (.output id)
  | _ => none

open Entry

theorem toolIds_message : origin.message.toolIds = origin.entries.filterMap toolId := by
  rcases origin with texts | content | ⟨texts, reasoning, calls⟩ | ⟨callId, content, images⟩ | delivered
  · rfl
  · rfl
  · have htexts : (texts.map Entry.assistant).filterMap toolId = [] := by
      rw [filterMap_map]
      exact filterMap_eq_nil_iff.mpr fun _ _ => rfl
    have hcalls : (calls.map (Entry.call ·.id)).filterMap toolId =
        calls.map (ToolId.call ·.id) := by
      rw [filterMap_map]
      exact congrFun filterMap_eq_map calls
    rw [Origin.entries, filterMap_append, htexts, hcalls]
    rfl
  · rfl
  · rfl

theorem SameKinds.toolIds {l l' : List Entry} (h : SameKinds l l') :
    l.filterMap toolId = l'.filterMap toolId := by
  have hfilter : ∀ l : List Entry,
      l.filterMap toolId = (l.filter (·.kind = .tool)).filterMap toolId := by
    intro l
    rw [filterMap_filter]
    refine filterMap_congr fun entry _ => ?_
    rcases entry with - | - | - | - | - <;> rfl
  rw [hfilter l, h .tool, ← hfilter]

theorem exists_origins {items : List ResponseItem}
    {messages : List ChatMessage} (h : chatMessagesFromItems ser items = .ok messages) :
    ∃ origins : List Origin, messages = origins.map Origin.message ∧
      SameKinds (origins.flatMap Origin.entries) (items.filterMap entry) ∧
      origins.flatMap Origin.bundles = origins.filterMap Origin.owed ∧
      ∀ before delivered after, origins = before ++ .images delivered :: after →
        Delivers before delivered := by
  have hnew : Simulates .new (some (.draining [])) :=
    ⟨rfl, rfl, fun _ => Iff.rfl, ⟨not_mem_nil, nodup_nil⟩, fun hne => absurd rfl hne⟩
  have hrun : run validId (.draining []) (items.map wireToken) = some (.draining []) :=
    (chatMessagesFromItems_isOk_iff ser items).mp (by rw [h]; rfl)
  have hsim := simulates_run ser hnew items
  rw [Option.bind_some, hrun] at hsim
  obtain ⟨origins, texts, bundles, htracks⟩ := Tracked.run ser hnew ⟨_, _, _, tracks_new⟩ hrun
  obtain ⟨origins, hflush, hcalls⟩ := htracks.flush
  -- in the end every call is answered, so that no images stay behind
  have hend : Draining _ [] := Draining.flush hsim
  have hmatched : (items.foldl (Converter.step ser) .new).flushPendingAssistant.unmatchedToolCalls =
      [] := eq_nil_iff_forall_not_mem.mpr fun id hmem => by simpa using (hend.unmatched id).mp hmem
  obtain ⟨origins, bundles, himages, hnone⟩ := hflush.flushImages fun _ => hend.checked
  obtain rfl := hnone hmatched
  have hmessages : messages = origins.map Origin.message := by
    rw [← himages.messages]
    unfold chatMessagesFromItems at h
    dsimp only at h
    split at h
    · cases h
    · cases h
      rfl
  have hentries := himages.entries
  rw [pendingToolCalls_flushImages, hcalls, heldEntries, map_nil, map_nil, append_nil, append_nil,
    nil_append] at hentries
  have howed := himages.owed
  rw [append_nil] at howed
  exact ⟨origins, hmessages, hentries, howed, himages.delivers⟩

theorem toolIds_of_ok {items : List ResponseItem}
    {messages : List ChatMessage} (h : chatMessagesFromItems ser items = .ok messages) :
    messages.flatMap ChatMessage.toolIds = (items.filterMap entry).filterMap toolId := by
  obtain ⟨origins, hmessages, hentries, -⟩ := exists_origins ser h
  rw [hmessages, ← hentries.toolIds, flatMap_map, filterMap_flatMap]
  exact flatMap_congr fun origin _ => toolIds_message origin

/-- **The Chat projection keeps the conversation.**  The ids of the calls in its assistant messages
and of its tool messages are those of the items, in order.  Each message has an origin: the texts of
the messages of each role appear in order, texts that join the message of calls one below the other;
and the images of every tool output are delivered in one user message, behind its tool message and at
a point where every call is answered. -/
theorem chatMessagesFromItems_conserves (ser : Serializer) {items : List ResponseItem}
    {messages : List ChatMessage} (h : chatMessagesFromItems ser items = .ok messages) :
    messages.flatMap ChatMessage.toolIds = (items.filterMap entry).filterMap Entry.toolId ∧
      ∃ origins : List Origin, messages = origins.map Origin.message ∧
        SameKinds (origins.flatMap Origin.entries) (items.filterMap entry) ∧
        origins.flatMap Origin.bundles = origins.filterMap Origin.owed ∧
        ∀ before delivered after, origins = before ++ .images delivered :: after →
          Delivers before delivered :=
  ⟨toolIds_of_ok ser h, exists_origins ser h⟩

/-- Two calls, the first answered with an image, and a message of the user. -/
def screenshotItems : List ResponseItem :=
  [.functionCall none "view" none "" "a", .functionCall none "view" none "" "b",
    .functionCallOutput none (some "a") none none
      ⟨.contentItems [.inputImage (.inline "u") none], none⟩ none,
    .functionCallOutput none (some "b") none none (.fromText "done") none,
    .message none "user" [.inputText "thanks"]]

def screenshotMessages : List ChatMessage :=
  [.assistant "" none [⟨"a", "view", ""⟩, ⟨"b", "view", ""⟩],
    .tool "a" "Image output is included in the following user message.", .tool "b" "done",
    .user (.parts [.text "Images returned by tool call `a`:", .imageUrl "u" none]),
    .user (.text "thanks")]

theorem screenshot_conserved :
    chatMessagesFromItems ⟨id, fun _ => "[]"⟩ screenshotItems = .ok screenshotMessages ∧
      ∃ origins : List Origin, screenshotMessages = origins.map Origin.message ∧
        SameKinds (origins.flatMap Origin.entries) (screenshotItems.filterMap entry) := by
  have hok : chatMessagesFromItems ⟨id, fun _ => "[]"⟩ screenshotItems = .ok screenshotMessages := by
    decide
  obtain ⟨-, origins, hmessages, hentries, -⟩ := chatMessagesFromItems_conserves _ hok
  exact ⟨hok, origins, hmessages, hentries⟩

/-- An output without a call id has no tool message, and its image is in no message. -/
theorem unpairedImage_dropped :
    chatMessagesFromItems ⟨id, fun _ => "[]"⟩
        [.functionCallOutput none none (some "notify") none
          ⟨.contentItems [.inputImage (.inline "u") none], none⟩ none] = .ok [] ∧
      outputImages (.contentItems [.inputImage (.inline "u") none]) = [.imageUrl "u" none] :=
  ⟨rfl, rfl⟩

end Chat

end CodexPlus
