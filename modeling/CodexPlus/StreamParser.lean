/-
CodexPlus/StreamParser.lean

Markup in the text of the assistant, as it streams in: utils/stream-parser.

`InlineHiddenTagParser` takes tags with their contents out of a text, and
`TaggedLineParser` finds blocks between tags that stand on lines of their own.
`AssistantTextStreamParser` does both: it strips citations, and in plan mode reads
the proposed plan from what is left.
-/
import CodexPlus.StreamSearch
import CodexPlus.Text

namespace CodexPlus

namespace StreamParser

open StreamSearch

abbrev Text := List Char

/-- `StreamTextChunk` -/
structure StreamTextChunk (τ : Type) where
  visibleText : Text
  extracted : List τ
  deriving DecidableEq, Repr

namespace StreamTextChunk

variable {τ : Type}

def isEmpty (chunk : StreamTextChunk τ) : Bool :=
  chunk.visibleText.isEmpty && chunk.extracted.isEmpty

/-- What two chunks give together. -/
def append (first second : StreamTextChunk τ) : StreamTextChunk τ :=
  ⟨first.visibleText ++ second.visibleText, first.extracted ++ second.extracted⟩

end StreamTextChunk

/-! ### Hidden inline tags -/

section Inline

variable {τ : Type}

structure ExtractedInlineTag (τ : Type) where
  tag : τ
  content : Text
  deriving DecidableEq, Repr

/-- `InlineTagSpec`, with what `InlineHiddenTagParser::new` asserts. -/
structure InlineTagSpec (τ : Type) where
  tag : τ
  openTag : Text
  closeTag : Text
  open_ne_nil : openTag ≠ []
  close_ne_nil : closeTag ≠ []

structure ActiveTag (τ : Type) where
  tag : τ
  closeTag : Text
  content : Text
  close_ne_nil : closeTag ≠ []

/-- The parser behind its tags: the text it holds back, and the tag it is in. -/
structure InlineState (τ : Type) where
  pending : Text
  active : Option (ActiveTag τ)

/-- The better of two openings: the first, then the longest. -/
def earlier (a b : ℕ × InlineTagSpec τ) : ℕ × InlineTagSpec τ :=
  if b.1 < a.1 ∨ b.1 = a.1 ∧ a.2.openTag.length < b.2.openTag.length then b else a

/-- `find_next_open` -/
def findNextOpen (specs : List (InlineTagSpec τ)) (pending : Text) :
    Option (ℕ × InlineTagSpec τ) :=
  match specs.filterMap fun spec => (find spec.openTag pending).map (·, spec) with
  | [] => none
  | first :: rest => some (rest.foldl earlier first)

/-- `max_open_prefix_suffix_len` -/
def maxOpenOverlap (specs : List (InlineTagSpec τ)) (pending : Text) : ℕ :=
  (specs.map fun spec => overlap spec.openTag pending).foldl max 0

/-- The loop of `push_str`.  Each turn but the last takes a tag off the text. -/
def inlineLoop (specs : List (InlineTagSpec τ)) :
    ℕ → InlineState τ → StreamTextChunk (ExtractedInlineTag τ) →
      StreamTextChunk (ExtractedInlineTag τ) × InlineState τ
  | 0, state, out => (out, state)
  | fuel + 1, ⟨pending, some active⟩, out =>
    match find active.closeTag pending with
    | some closeIdx =>
      inlineLoop specs fuel ⟨pending.drop (closeIdx + active.closeTag.length), none⟩
        ⟨out.visibleText, out.extracted ++ [⟨active.tag, active.content ++ pending.take closeIdx⟩]⟩
    | none =>
      let take := pending.length - overlap active.closeTag pending
      (out, ⟨pending.drop take, some { active with content := active.content ++ pending.take take }⟩)
  | fuel + 1, ⟨pending, none⟩, out =>
    match findNextOpen specs pending with
    | some (openIdx, spec) =>
      inlineLoop specs fuel
        ⟨pending.drop (openIdx + spec.openTag.length), some ⟨spec.tag, spec.closeTag, [], spec.close_ne_nil⟩⟩
        ⟨out.visibleText ++ pending.take openIdx, out.extracted⟩
    | none =>
      let take := pending.length - maxOpenOverlap specs pending
      (⟨out.visibleText ++ pending.take take, out.extracted⟩, ⟨pending.drop take, none⟩)

structure InlineHiddenTagParser (τ : Type) where
  specs : List (InlineTagSpec τ)
  state : InlineState τ

namespace InlineHiddenTagParser

def new (specs : List (InlineTagSpec τ)) : InlineHiddenTagParser τ := ⟨specs, ⟨[], none⟩⟩

def pushStr (parser : InlineHiddenTagParser τ) (chunk : Text) :
    StreamTextChunk (ExtractedInlineTag τ) × InlineHiddenTagParser τ :=
  let pending := parser.state.pending ++ chunk
  let (out, state) :=
    inlineLoop parser.specs (pending.length + 1) ⟨pending, parser.state.active⟩ ⟨[], []⟩
  (out, { parser with state })

def finish (parser : InlineHiddenTagParser τ) :
    StreamTextChunk (ExtractedInlineTag τ) × InlineHiddenTagParser τ :=
  match parser.state.active with
  | some active =>
    (⟨[], [⟨active.tag, active.content ++ parser.state.pending⟩]⟩, new parser.specs)
  | none => (⟨parser.state.pending, []⟩, new parser.specs)

end InlineHiddenTagParser

end Inline

/-! ### Citations -/

inductive CitationTag where
  | citation
  deriving DecidableEq, Repr

def citationOpen : Text := "<oai-mem-citation>".toList
def citationClose : Text := "</oai-mem-citation>".toList

def citationSpec : InlineTagSpec CitationTag :=
  ⟨.citation, citationOpen, citationClose, by decide, by decide⟩

structure CitationStreamParser where
  inner : InlineHiddenTagParser CitationTag

namespace CitationStreamParser

def new : CitationStreamParser := ⟨.new [citationSpec]⟩

/-- The bodies of extracted tags. -/
def contents (chunk : StreamTextChunk (ExtractedInlineTag CitationTag)) : StreamTextChunk Text :=
  ⟨chunk.visibleText, chunk.extracted.map (·.content)⟩

def pushStr (parser : CitationStreamParser) (chunk : Text) :
    StreamTextChunk Text × CitationStreamParser :=
  let (out, inner) := parser.inner.pushStr chunk
  (contents out, ⟨inner⟩)

def finish (parser : CitationStreamParser) : StreamTextChunk Text × CitationStreamParser :=
  let (out, inner) := parser.inner.finish
  (contents out, ⟨inner⟩)

end CitationStreamParser

def stripCitations (text : Text) : Text × List Text :=
  let (out, parser) := CitationStreamParser.new.pushStr text
  let (tail, _) := parser.finish
  (out.visibleText ++ tail.visibleText, out.extracted ++ tail.extracted)

/-! ### Tags on lines -/

section Lines

variable {τ : Type} [DecidableEq τ]

structure TagSpec (τ : Type) where
  openTag : Text
  closeTag : Text
  tag : τ
  deriving DecidableEq, Repr

inductive TaggedLineSegment (τ : Type) where
  | normal (text : Text)
  | tagStart (tag : τ)
  | tagDelta (tag : τ) (text : Text)
  | tagEnd (tag : τ)
  deriving DecidableEq, Repr

structure TaggedLineParser (τ : Type) where
  specs : List (TagSpec τ)
  activeTag : Option τ
  detectTag : Bool
  lineBuffer : Text
  deriving DecidableEq, Repr

/-- `push_segment`: a text joins the last segment if that is of the same kind. -/
def pushSegment (segments : List (TaggedLineSegment τ)) (segment : TaggedLineSegment τ) :
    List (TaggedLineSegment τ) :=
  match segment with
  | .normal delta =>
    if delta.isEmpty then segments
    else
      match segments.getLast? with
      | some (.normal existing) => segments.dropLast ++ [.normal (existing ++ delta)]
      | _ => segments ++ [.normal delta]
  | .tagDelta tag delta =>
    if delta.isEmpty then segments
    else
      match segments.getLast? with
      | some (.tagDelta existingTag existing) =>
        if existingTag = tag then segments.dropLast ++ [.tagDelta existingTag (existing ++ delta)]
        else segments ++ [.tagDelta tag delta]
      | _ => segments ++ [.tagDelta tag delta]
  | .tagStart tag => segments ++ [.tagStart tag]
  | .tagEnd tag => segments ++ [.tagEnd tag]

namespace TaggedLineParser

def new (specs : List (TagSpec τ)) : TaggedLineParser τ := ⟨specs, none, true, []⟩

variable (parser : TaggedLineParser τ)

/-- The segment that a text belongs to. -/
def textSegment (text : Text) : TaggedLineSegment τ :=
  match parser.activeTag with
  | some tag => .tagDelta tag text
  | none => .normal text

def pushText (text : Text) (segments : List (TaggedLineSegment τ)) :
    List (TaggedLineSegment τ) := pushSegment segments (parser.textSegment text)

def isTagPrefix (slug : Text) : Bool :=
  let slug := trimEnd slug
  parser.specs.any fun spec => slug.isPrefixOf spec.openTag || slug.isPrefixOf spec.closeTag

def matchOpen (slug : Text) : Option τ :=
  (parser.specs.find? fun spec => spec.openTag = slug).map (·.tag)

def matchClose (slug : Text) : Option τ :=
  (parser.specs.find? fun spec => spec.closeTag = slug).map (·.tag)

/-- A line without its end and the whitespace around it. -/
def lineSlug (line : Text) : Text :=
  trimEnd (trimStart (if line.getLast? = some '\n' then line.dropLast else line))

/-- What a whole line is: a tag that begins or ends a block here, or text. -/
def lineSegment (line : Text) : TaggedLineSegment τ × Option τ :=
  match parser.matchOpen (lineSlug line), parser.activeTag with
  | some tag, none => (.tagStart tag, some tag)
  | _, active =>
    match parser.matchClose (lineSlug line) with
    | some tag => if active = some tag then (.tagEnd tag, none) else (parser.textSegment line, active)
    | none => (parser.textSegment line, active)

/-- `finish_line` -/
def finishLine (segments : List (TaggedLineSegment τ)) :
    TaggedLineParser τ × List (TaggedLineSegment τ) :=
  let (segment, active) := parser.lineSegment parser.lineBuffer
  (⟨parser.specs, active, true, []⟩, pushSegment segments segment)

/-- The loop of `parse`, with the text `run` that is not pushed yet. -/
def parseLoop : Text → TaggedLineParser τ → Text → List (TaggedLineSegment τ) →
    TaggedLineParser τ × List (TaggedLineSegment τ)
  | [], parser, run, segments =>
    (parser, if run.isEmpty then segments else parser.pushText run segments)
  | ch :: rest, parser, run, segments =>
    if parser.detectTag then
      let segments := if run.isEmpty then segments else parser.pushText run segments
      let parser := { parser with lineBuffer := parser.lineBuffer ++ [ch] }
      if ch = '\n' then
        let (parser, segments) := parser.finishLine segments
        parseLoop rest parser [] segments
      else
        let slug := trimStart parser.lineBuffer
        if slug.isEmpty || parser.isTagPrefix slug then parseLoop rest parser [] segments
        else
          let buffered := parser.lineBuffer
          let parser := { parser with lineBuffer := [], detectTag := false }
          parseLoop rest parser [] (parser.pushText buffered segments)
    else
      let run := run ++ [ch]
      if ch = '\n' then
        parseLoop rest { parser with detectTag := true } [] (parser.pushText run segments)
      else parseLoop rest parser run segments

def parse (delta : Text) : List (TaggedLineSegment τ) × TaggedLineParser τ :=
  let (parser, segments) := parseLoop delta parser [] []
  (segments, parser)

def finish : List (TaggedLineSegment τ) × TaggedLineParser τ :=
  let (segments, active) :=
    if parser.lineBuffer.isEmpty then ([], parser.activeTag)
    else
      let (segment, active) := parser.lineSegment parser.lineBuffer
      (pushSegment [] segment, active)
  let segments := active.elim segments fun tag => pushSegment segments (.tagEnd tag)
  (segments, ⟨parser.specs, none, true, []⟩)

end TaggedLineParser

end Lines

/-! ### The proposed plan -/

def openTag : Text := "<proposed_plan>".toList
def closeTag : Text := "</proposed_plan>".toList

inductive PlanTag where
  | proposedPlan
  deriving DecidableEq, Repr

inductive ProposedPlanSegment where
  | normal (text : Text)
  | proposedPlanStart
  | proposedPlanDelta (text : Text)
  | proposedPlanEnd
  deriving DecidableEq, Repr

/-- The segment of the plan that a segment of the lines is. -/
def mapSegment : TaggedLineSegment PlanTag → ProposedPlanSegment
  | .normal text => .normal text
  | .tagStart .proposedPlan => .proposedPlanStart
  | .tagDelta .proposedPlan text => .proposedPlanDelta text
  | .tagEnd .proposedPlan => .proposedPlanEnd

/-- The text of a segment that is shown. -/
def ProposedPlanSegment.visible : ProposedPlanSegment → Text
  | .normal text => text
  | _ => []

def mapSegments (segments : List (TaggedLineSegment PlanTag)) :
    StreamTextChunk ProposedPlanSegment :=
  ⟨(segments.map mapSegment).flatMap (·.visible), segments.map mapSegment⟩

structure ProposedPlanParser where
  parser : TaggedLineParser PlanTag
  deriving DecidableEq, Repr

namespace ProposedPlanParser

def new : ProposedPlanParser := ⟨.new [⟨openTag, closeTag, .proposedPlan⟩]⟩

def pushStr (plan : ProposedPlanParser) (chunk : Text) :
    StreamTextChunk ProposedPlanSegment × ProposedPlanParser :=
  let (segments, parser) := plan.parser.parse chunk
  (mapSegments segments, ⟨parser⟩)

def finish (plan : ProposedPlanParser) :
    StreamTextChunk ProposedPlanSegment × ProposedPlanParser :=
  let (segments, parser) := plan.parser.finish
  (mapSegments segments, ⟨parser⟩)

end ProposedPlanParser

def stripProposedPlanBlocks (text : Text) : Text :=
  let (out, plan) := ProposedPlanParser.new.pushStr text
  out.visibleText ++ plan.finish.1.visibleText

/-- One turn of the loop of `extract_proposed_plan_text`: the text of the plan, and whether there
is one. -/
def planTextStep (plan : Text × Bool) : ProposedPlanSegment → Text × Bool
  | .proposedPlanStart => ([], true)
  | .proposedPlanDelta delta => (plan.1 ++ delta, plan.2)
  | .proposedPlanEnd | .normal _ => plan

/-- The text of the last plan among segments. -/
def planText (segments : List ProposedPlanSegment) : Option Text :=
  let (planText, sawPlanBlock) := segments.foldl planTextStep ([], false)
  if sawPlanBlock then some planText else none

def extractProposedPlanText (text : Text) : Option Text :=
  let (out, plan) := ProposedPlanParser.new.pushStr text
  planText (out.extracted ++ plan.finish.1.extracted)

/-! ### The text of the assistant -/

structure AssistantTextChunk where
  visibleText : Text
  citations : List Text
  planSegments : List ProposedPlanSegment
  deriving DecidableEq, Repr

structure AssistantTextStreamParser where
  planMode : Bool
  citations : CitationStreamParser
  plan : ProposedPlanParser

namespace AssistantTextStreamParser

def new (planMode : Bool) : AssistantTextStreamParser := ⟨planMode, .new, .new⟩

variable (parser : AssistantTextStreamParser)

def parseVisibleText (visibleText : Text) : AssistantTextChunk × AssistantTextStreamParser :=
  if parser.planMode then
    let (planChunk, plan) := parser.plan.pushStr visibleText
    (⟨planChunk.visibleText, [], planChunk.extracted⟩, { parser with plan })
  else (⟨visibleText, [], []⟩, parser)

def pushStr (chunk : Text) : AssistantTextChunk × AssistantTextStreamParser :=
  let (citationChunk, citations) := parser.citations.pushStr chunk
  let (out, parser) := { parser with citations }.parseVisibleText citationChunk.visibleText
  ({ out with citations := citationChunk.extracted }, parser)

def finish : AssistantTextChunk × AssistantTextStreamParser :=
  let (citationChunk, citations) := parser.citations.finish
  let (out, parser) := { parser with citations }.parseVisibleText citationChunk.visibleText
  let (out, parser) :=
    if parser.planMode then
      let (tail, plan) := parser.plan.finish
      let out := if tail.isEmpty then out
        else ⟨out.visibleText ++ tail.visibleText, out.citations, out.planSegments ++ tail.extracted⟩
      (out, { parser with plan })
    else (out, parser)
  ({ out with citations := citationChunk.extracted }, parser)

/-- All that a text gives: the chunks one after the other, and then the end. -/
def collect : AssistantTextStreamParser → List Text → AssistantTextChunk
  | parser, [] => parser.finish.1
  | parser, chunk :: rest =>
    let (out, parser) := parser.pushStr chunk
    let more := parser.collect rest
    ⟨out.visibleText ++ more.visibleText, out.citations ++ more.citations,
      out.planSegments ++ more.planSegments⟩

end AssistantTextStreamParser

end StreamParser

end CodexPlus
