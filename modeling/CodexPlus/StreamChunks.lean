/-
CodexPlus/StreamChunks.lean

How a text is cut into chunks does not show in what is read from it.

The parser of hidden tags holds back what may be the beginning of a tag: feeding it a
text and then more is feeding it both at once (`scan_more`).  The parser of lines reads
one character after the other, and what it gives differs only in where a text is split
into segments, which goes away when segments are joined.
-/
import CodexPlus.Coalesce
import CodexPlus.StreamParser

namespace CodexPlus

open List

namespace StreamParser

open StreamSearch Coalesce

variable {τ : Type}

namespace StreamTextChunk

theorem append_assoc (a b c : StreamTextChunk τ) :
    (a.append b).append c = a.append (b.append c) := by
  simp [append]

variable (a : StreamTextChunk τ)

@[simp] theorem nil_append : append ⟨[], []⟩ a = a := rfl

@[simp] theorem append_nil : a.append ⟨[], []⟩ = a := by
  simp [append]

end StreamTextChunk

/-! ### One tag -/

section Inline

variable {spec : InlineTagSpec τ} {state : InlineState τ} {t : Text}

namespace InlineState

variable (spec)

/-- The tag that is looked for. -/
def needle (state : InlineState τ) : Text :=
  state.active.elim spec.openTag (·.closeTag)

/-- The first symbols that are held back go out, as text or into the tag. -/
def give (state : InlineState τ) (n : ℕ) :
    StreamTextChunk (ExtractedInlineTag τ) × InlineState τ :=
  match state with
  | ⟨pending, none⟩ => (⟨pending.take n, []⟩, ⟨pending.drop n, none⟩)
  | ⟨pending, some active⟩ =>
    (⟨[], []⟩, ⟨pending.drop n, some { active with content := active.content ++ pending.take n }⟩)

/-- The tag that is looked for is taken off the text. -/
def turn (state : InlineState τ) : StreamTextChunk (ExtractedInlineTag τ) × InlineState τ :=
  match state with
  | ⟨pending, none⟩ =>
    (⟨[], []⟩, ⟨pending.drop spec.openTag.length,
      some ⟨spec.tag, spec.closeTag, [], spec.close_ne_nil⟩⟩)
  | ⟨pending, some active⟩ =>
    (⟨[], [⟨active.tag, active.content⟩]⟩, ⟨pending.drop active.closeTag.length, none⟩)

/-- More text arrives. -/
def more (state : InlineState τ) (t : Text) : InlineState τ := ⟨state.pending ++ t, state.active⟩

theorem needle_ne_nil (state : InlineState τ) : state.needle spec ≠ [] := by
  rcases state with ⟨pending, - | active⟩
  · exact spec.open_ne_nil
  · exact active.close_ne_nil

variable {spec}

@[simp] theorem needle_more : (state.more t).needle spec = state.needle spec := rfl

@[simp] theorem needle_give (n : ℕ) : (state.give n).2.needle spec = state.needle spec := by
  rcases state with ⟨pending, - | active⟩ <;> rfl

@[simp] theorem pending_give (n : ℕ) : (state.give n).2.pending = state.pending.drop n := by
  rcases state with ⟨pending, - | active⟩ <;> rfl

theorem pending_turn :
    (state.turn spec).2.pending = state.pending.drop (state.needle spec).length := by
  rcases state with ⟨pending, - | active⟩ <;> rfl

theorem more_more (s t : Text) : (state.more s).more t = state.more (s ++ t) := by
  simp [more, append_assoc]

theorem give_more {n : ℕ} (h : n ≤ state.pending.length) :
    (state.more t).give n = ((state.give n).1, (state.give n).2.more t) := by
  rcases state with ⟨pending, - | active⟩
  all_goals simp [give, more, take_append_of_le_length h, drop_append_of_le_length h]

theorem turn_more (h : (state.needle spec).length ≤ state.pending.length) :
    (state.more t).turn spec = ((state.turn spec).1, (state.turn spec).2.more t) := by
  rcases state with ⟨pending, - | active⟩
  · have h : spec.openTag.length ≤ pending.length := h
    simp [turn, more, drop_append_of_le_length h]
  · have h : active.closeTag.length ≤ pending.length := h
    simp [turn, more, drop_append_of_le_length h]

/-- Symbols go out in one or in two steps. -/
theorem give_add (n m : ℕ) :
    state.give (n + m) =
      ((state.give n).1.append ((state.give n).2.give m).1, ((state.give n).2.give m).2) := by
  rcases state with ⟨pending, - | active⟩
  all_goals simp [give, StreamTextChunk.append, take_add, drop_drop]

end InlineState

variable (spec) (pending : Text)

theorem findNextOpen_singleton :
    findNextOpen [spec] pending = (find spec.openTag pending).map (·, spec) := by
  unfold findNextOpen
  rcases h : find spec.openTag pending with - | i <;> simp [h]

theorem maxOpenOverlap_singleton :
    maxOpenOverlap [spec] pending = overlap spec.openTag pending := by
  simp [maxOpenOverlap]

variable (fuel : ℕ)

/-- One turn of the loop, for a single tag. -/
theorem inlineLoop_succ (state : InlineState τ) (out : StreamTextChunk (ExtractedInlineTag τ)) :
    inlineLoop [spec] (fuel + 1) state out =
      match find (state.needle spec) state.pending with
      | some i =>
        inlineLoop [spec] fuel ((state.give i).2.turn spec).2
          ((out.append (state.give i).1).append ((state.give i).2.turn spec).1)
      | none =>
        let given := state.give (state.pending.length - overlap (state.needle spec) state.pending)
        (out.append given.1, given.2) := by
  rcases state with ⟨pending, - | active⟩
  · rw [inlineLoop, findNextOpen_singleton, maxOpenOverlap_singleton]
    show _ = match find spec.openTag pending with | some i => _ | none => _
    rcases find spec.openTag pending with - | i
    · simp [InlineState.give, InlineState.needle, StreamTextChunk.append]
    · simp [InlineState.give, InlineState.turn, StreamTextChunk.append, drop_drop]
  · rw [inlineLoop]
    show _ = match find active.closeTag pending with | some i => _ | none => _
    rcases find active.closeTag pending with - | i
    · simp [InlineState.give, InlineState.needle, StreamTextChunk.append]
    · simp [InlineState.give, InlineState.turn, StreamTextChunk.append, drop_drop]

/-- What was given before the loop stays before what the loop gives. -/
theorem inlineLoop_out (state : InlineState τ) (out : StreamTextChunk (ExtractedInlineTag τ)) :
    inlineLoop [spec] fuel state out =
      (out.append (inlineLoop [spec] fuel state ⟨[], []⟩).1,
        (inlineLoop [spec] fuel state ⟨[], []⟩).2) := by
  induction fuel generalizing state out with
  | zero => simp [inlineLoop]
  | succ fuel ih =>
    rw [inlineLoop_succ, inlineLoop_succ]
    rcases find (state.needle spec) state.pending with - | i
    · rfl
    · show inlineLoop [spec] fuel _ _ = (out.append (inlineLoop [spec] fuel _ _).1,
        (inlineLoop [spec] fuel _ _).2)
      rw [ih, ih _ ((StreamTextChunk.append ⟨[], []⟩ _).append _)]
      simp [StreamTextChunk.append_assoc]

variable {spec}

/-- Taking off a tag that was found makes the text shorter. -/
theorem length_turn_lt {i : ℕ} (h : find (state.needle spec) state.pending = some i) :
    ((state.give i).2.turn spec).2.pending.length < state.pending.length := by
  have hstands := (find_eq_some.mp h).2.1.length_le
  have hpos := length_pos_of_ne_nil (state.needle_ne_nil spec)
  rw [length_drop] at hstands
  rw [InlineState.pending_turn, InlineState.needle_give, InlineState.pending_give,
    length_drop, length_drop]
  omega

/-- With a symbol of fuel for every symbol of the text, the loop comes to its end. -/
theorem inlineLoop_fuel (spec : InlineTagSpec τ) {fuel fuel' : ℕ}
    (out : StreamTextChunk (ExtractedInlineTag τ)) (h : state.pending.length < fuel)
    (h' : state.pending.length < fuel') :
    inlineLoop [spec] fuel state out = inlineLoop [spec] fuel' state out := by
  induction fuel generalizing state out fuel' with
  | zero => exact absurd h (Nat.not_lt_zero _)
  | succ _ ih =>
    cases fuel' with
    | zero => exact absurd h' (Nat.not_lt_zero _)
    | succ =>
      rw [inlineLoop_succ, inlineLoop_succ]
      rcases hfind : find (state.needle spec) state.pending with - | i
      · rfl
      · have hlength := length_turn_lt hfind
        exact ih _ (by omega) (by omega)

/-- What the parser reads from the text it holds. -/
def scan (spec : InlineTagSpec τ) (state : InlineState τ) :
    StreamTextChunk (ExtractedInlineTag τ) × InlineState τ :=
  inlineLoop [spec] (state.pending.length + 1) state ⟨[], []⟩

theorem scan_none (h : find (state.needle spec) state.pending = none) :
    scan spec state =
      state.give (state.pending.length - overlap (state.needle spec) state.pending) := by
  rw [scan, inlineLoop_succ, h]
  rfl

theorem scan_some {i : ℕ} (h : find (state.needle spec) state.pending = some i) :
    scan spec state =
      ((state.give i).1.append (((state.give i).2.turn spec).1.append
          (scan spec ((state.give i).2.turn spec).2).1),
        (scan spec ((state.give i).2.turn spec).2).2) := by
  rw [scan, inlineLoop_succ, h]
  show inlineLoop [spec] state.pending.length _ _ = _
  rw [inlineLoop_fuel spec _ (length_turn_lt h) (Nat.lt_succ_self _), inlineLoop_out]
  rw [StreamTextChunk.append_assoc]
  rfl

/-- Without a tag, all but the overlap has gone out, and the rest is read behind it. -/
theorem scan_more_of_none (h : find (state.needle spec) state.pending = none) (t : Text) :
    scan spec (state.more t) =
      ((scan spec state).1.append (scan spec ((scan spec state).2.more t)).1,
        (scan spec ((scan spec state).2.more t)).2) := by
  rw [scan_none h]
  obtain ⟨given, hgiven⟩ : ∃ given, given =
      state.pending.length - overlap (state.needle spec) state.pending := ⟨_, rfl⟩
  rw [← hgiven]
  have hadd : ∀ n, (state.more t).give (given + n) =
      ((state.give given).1.append (((state.give given).2.more t).give n).1,
        (((state.give given).2.more t).give n).2) := by
    intro n
    rw [InlineState.give_add, InlineState.give_more (by omega)]
  have hneedle : ((state.give given).2.more t).needle spec = state.needle spec :=
    InlineState.needle_give given
  have hpending : ((state.give given).2.more t).pending =
      kept (state.needle spec) state.pending ++ t := by
    rw [InlineState.more, InlineState.pending_give, hgiven]
    rfl
  have hfind := find_append h t
  rw [← hgiven] at hfind
  rcases hrest : find (state.needle spec) (kept (state.needle spec) state.pending ++ t) with - | i
  · have hmore : find ((state.more t).needle spec) (state.more t).pending = none := by
      rw [hrest] at hfind
      exact hfind
    have hlength : (state.more t).pending.length -
        overlap ((state.more t).needle spec) (state.more t).pending =
          given + (((state.give given).2.more t).pending.length -
            overlap (((state.give given).2.more t).needle spec)
              ((state.give given).2.more t).pending) := by
      rw [hneedle, hpending, ← overlap_append (state.needle_ne_nil spec) h t]
      have hle : overlap (state.needle spec) (state.pending ++ t) ≤
          (kept (state.needle spec) state.pending ++ t).length := by
        rw [overlap_append (state.needle_ne_nil spec) h t]
        exact overlap_le
      have hkept : (state.pending ++ t).length =
          given + (kept (state.needle spec) state.pending ++ t).length :=
        hgiven ▸ length_append_eq t
      show (state.pending ++ t).length - overlap (state.needle spec) (state.pending ++ t) = _
      omega
    rw [scan_none hmore, hlength, hadd, scan_none (by rw [hneedle, hpending, hrest])]
  · have hmore : find ((state.more t).needle spec) (state.more t).pending = some (given + i) := by
      rw [hrest] at hfind
      exact hfind
    have hbehind : find (((state.give given).2.more t).needle spec)
        ((state.give given).2.more t).pending = some i := by rw [hneedle, hpending, hrest]
    rw [scan_some hmore, hadd, scan_some hbehind, StreamTextChunk.append_assoc]

/-- **Feeding a text and then more is feeding both at once.** -/
theorem scan_more (spec : InlineTagSpec τ) (state : InlineState τ) (t : Text) :
    scan spec (state.more t) =
      ((scan spec state).1.append (scan spec ((scan spec state).2.more t)).1,
        (scan spec ((scan spec state).2.more t)).2) := by
  induction hn : state.pending.length using Nat.strong_induction_on generalizing state with
  | _ n ih =>
    rcases hfind : find (state.needle spec) state.pending with - | i
    · exact scan_more_of_none hfind t
    -- the tag is found at the same place
    have hmore : find ((state.more t).needle spec) (state.more t).pending = some i :=
      find_append_of_some hfind t
    obtain ⟨hle, hstands, -⟩ := find_eq_some.mp hfind
    have hgive := state.give_more (t := t) hle
    have hlength : ((state.give i).2.needle spec).length ≤ (state.give i).2.pending.length := by
      rw [InlineState.needle_give, InlineState.pending_give]
      exact hstands.length_le
    have hturn := (state.give i).2.turn_more (t := t) hlength
    rw [scan_some hmore, scan_some hfind, hgive, hturn, ih _ (hn ▸ length_turn_lt hfind) _ rfl]
    simp [StreamTextChunk.append_assoc]

/-- Feeding a text in chunks: what they give together, and the state at the end. -/
def scanAll (spec : InlineTagSpec τ) : InlineState τ → List Text →
    StreamTextChunk (ExtractedInlineTag τ) × InlineState τ
  | state, [] => (⟨[], []⟩, state)
  | state, chunk :: rest =>
    let (out, state) := scan spec (state.more chunk)
    let (others, state) := scanAll spec state rest
    (out.append others, state)

theorem scanAll_eq (spec : InlineTagSpec τ) (state : InlineState τ) (chunk : Text)
    (rest : List Text) :
    scanAll spec state (chunk :: rest) = scan spec (state.more (chunk :: rest).flatten) := by
  induction rest generalizing state chunk with
  | nil =>
    rw [flatten_cons, flatten_nil, append_nil]
    exact Prod.ext (StreamTextChunk.append_nil _) rfl
  | cons _ _ ih =>
    rw [flatten_cons, ← InlineState.more_more, scan_more, ← ih]
    rfl

theorem scan_empty (spec : InlineTagSpec τ) : scan spec ⟨[], none⟩ = (⟨[], []⟩, ⟨[], none⟩) := by
  have hnone : find (InlineState.needle spec ⟨[], none⟩) [] = none := if_neg spec.open_ne_nil
  rw [scan_none hnone]
  rfl

/-- **A text in chunks gives what the whole text gives.** -/
theorem scanAll_start (spec : InlineTagSpec τ) (chunks : List Text) :
    scanAll spec ⟨[], none⟩ chunks = scan spec ⟨chunks.flatten, none⟩ := by
  cases chunks with
  | nil => exact (scan_empty spec).symm
  | cons chunk rest => exact scanAll_eq spec ⟨[], none⟩ chunk rest

end Inline

/-! ### Segments of lines -/

section Lines

variable [DecidableEq τ]

/-- Two texts of one kind are one text. -/
def combineSegments : TaggedLineSegment τ → TaggedLineSegment τ → Option (TaggedLineSegment τ)
  | .normal text, .normal delta => some (.normal (text ++ delta))
  | .tagDelta tag text, .tagDelta tag' delta =>
    if tag = tag' then some (.tagDelta tag (text ++ delta)) else none
  | _, _ => none

theorem combineSegments_eq_some {a b c : TaggedLineSegment τ} :
    combineSegments a b = some c ↔
      (∃ s t, a = .normal s ∧ b = .normal t ∧ c = .normal (s ++ t)) ∨
        ∃ tag s t, a = .tagDelta tag s ∧ b = .tagDelta tag t ∧ c = .tagDelta tag (s ++ t) := by
  cases a <;> cases b <;> simp [combineSegments, eq_comm]

theorem joins_combineSegments : Joins (combineSegments (τ := τ)) := by
  constructor
  · intro x a b z c hab hxa
    rcases combineSegments_eq_some.mp hab with ⟨s, t, rfl, rfl, rfl⟩ | ⟨tag, s, t, rfl, rfl, rfl⟩
    · rcases combineSegments_eq_some.mp hxa with ⟨r, _, rfl, ⟨⟩, rfl⟩ | ⟨_, _, _, _, ⟨⟩, _⟩
      exact ⟨_, rfl, by rw [append_assoc]; rfl⟩
    · rcases combineSegments_eq_some.mp hxa with ⟨_, _, _, ⟨⟩, _⟩ | ⟨_, r, _, rfl, ⟨⟩, rfl⟩
      simp [combineSegments, append_assoc]
  · intro x a b c hab hxa
    rcases combineSegments_eq_some.mp hab with ⟨s, t, rfl, rfl, rfl⟩ | ⟨tag, s, t, rfl, rfl, rfl⟩
    all_goals cases x <;> simp_all [combineSegments]

/-- The text of a segment, if it is one of text. -/
def TaggedLineSegment.IsEmptyText : TaggedLineSegment τ → Prop
  | .normal text | .tagDelta _ text => text = []
  | .tagStart _ | .tagEnd _ => False

theorem pushSegment_eq_join {segment : TaggedLineSegment τ} (h : ¬ segment.IsEmptyText)
    (segments : List (TaggedLineSegment τ)) :
    pushSegment segments segment = join combineSegments segments segment := by
  rcases segments.eq_nil_or_concat with rfl | ⟨init, last, rfl⟩
  · cases segment <;> simp_all [pushSegment, TaggedLineSegment.IsEmptyText]
  · rw [concat_eq_append]
    cases segment <;> cases last <;>
      simp_all [pushSegment, join, combineSegments, TaggedLineSegment.IsEmptyText]
    split <;> simp_all

namespace TaggedLineParser

variable (parser : TaggedLineParser τ)

/-- What one character does: the segments it completes, before they are joined. -/
def step (ch : Char) : TaggedLineParser τ × List (TaggedLineSegment τ) :=
  if parser.detectTag then
    let line := parser.lineBuffer ++ [ch]
    if ch = '\n' then
      (⟨parser.specs, (parser.lineSegment line).2, true, []⟩, [(parser.lineSegment line).1])
    else if (trimStart line).isEmpty || parser.isTagPrefix (trimStart line) then
      ({ parser with lineBuffer := line }, [])
    else ({ parser with lineBuffer := [], detectTag := false }, [parser.textSegment line])
  else ({ parser with detectTag := decide (ch = '\n') }, [parser.textSegment [ch]])

/-- What a text does, character by character. -/
def steps : TaggedLineParser τ → Text → TaggedLineParser τ × List (TaggedLineSegment τ)
  | parser, [] => (parser, [])
  | parser, ch :: rest =>
    let (next, segments) := parser.step ch
    let (last, more) := next.steps rest
    (last, segments ++ more)

theorem steps_append (s t : Text) : parser.steps (s ++ t) =
      (((parser.steps s).1.steps t).1, (parser.steps s).2 ++ ((parser.steps s).1.steps t).2) := by
  induction s generalizing parser with
  | nil => rfl
  | cons _ _ ih => simp [steps, ih, append_assoc]

omit [DecidableEq τ] in
theorem not_isEmptyText_textSegment {text : Text} (h : text ≠ []) :
    ¬ (parser.textSegment text).IsEmptyText := by
  unfold textSegment
  split <;> exact h

theorem not_isEmptyText_lineSegment {line : Text} (h : line ≠ []) :
    ¬ (parser.lineSegment line).1.IsEmptyText := by
  have htext := parser.not_isEmptyText_textSegment h
  unfold lineSegment
  split
  · exact id
  split
  · split
    · exact id
    · exact htext
  · exact htext

/-- The segments with a text behind them that is not pushed yet. -/
def withRun (run : Text) (segments : List (TaggedLineSegment τ)) : List (TaggedLineSegment τ) :=
  if run.isEmpty then segments else parser.pushText run segments

/-- A character more in the text that is not pushed yet. -/
theorem pushText_concat (run : Text) (ch : Char) (segments : List (TaggedLineSegment τ)) :
    parser.pushText (run ++ [ch]) segments =
      join combineSegments (parser.withRun run segments) (parser.textSegment [ch]) := by
  have hall : ¬ (parser.textSegment (run ++ [ch])).IsEmptyText :=
    parser.not_isEmptyText_textSegment (by simp)
  rw [pushText, pushSegment_eq_join hall]
  by_cases hrun : run = []
  · rw [hrun]
    rfl
  have hcombine : combineSegments (parser.textSegment run) (parser.textSegment [ch]) =
      some (parser.textSegment (run ++ [ch])) := by
    unfold textSegment
    rcases parser.activeTag with - | tag
    · rfl
    · exact if_pos rfl
  rw [withRun, if_neg (by simpa using hrun), pushText,
    pushSegment_eq_join (parser.not_isEmptyText_textSegment hrun),
    join_join joins_combineSegments hcombine]

/-- **The loop of the parser gives the segments of the characters, joined.** -/
theorem parseLoop_eq (rest : Text) (parser : TaggedLineParser τ) (run : Text)
    (segments : List (TaggedLineSegment τ)) (hrun : parser.detectTag → run = []) :
    parseLoop rest parser run segments =
      ((parser.steps rest).1,
        (parser.steps rest).2.foldl (join combineSegments) (parser.withRun run segments)) := by
  induction rest generalizing parser run segments with
  | nil => rfl
  | cons ch _ ih =>
    rw [parseLoop, steps]
    by_cases hdetect : parser.detectTag = true
    · -- at the start of a line the characters are kept until it is known what they are
      obtain rfl := hrun hdetect
      have hline : parser.lineBuffer ++ [ch] ≠ [] := by simp
      by_cases hch : ch = '\n'
      · have hpush := pushSegment_eq_join (parser.not_isEmptyText_lineSegment hline) segments
        simp only [step, if_pos hdetect, if_pos hch, finishLine]
        rw [ih _ _ _ fun _ => rfl]
        exact Prod.ext rfl (congrArg (List.foldl (join combineSegments) · _) hpush)
      · by_cases hslug : ((trimStart (parser.lineBuffer ++ [ch])).isEmpty ||
            parser.isTagPrefix (trimStart (parser.lineBuffer ++ [ch]))) = true
        · simp only [step, if_pos hdetect, if_neg hch]
          rw [if_pos hslug]
          refine (if_pos hslug).trans ?_
          rw [ih _ _ _ fun _ => rfl]
          rfl
        · have hpush := pushSegment_eq_join (parser.not_isEmptyText_textSegment hline) segments
          simp only [step, if_pos hdetect, if_neg hch]
          rw [if_neg hslug]
          refine (if_neg hslug).trans ?_
          rw [ih _ _ _ fun _ => rfl]
          exact Prod.ext rfl (congrArg (List.foldl (join combineSegments) · _) hpush)
    · -- inside a line of text the characters are joined to the ones before them
      have hpush := parser.pushText_concat run ch segments
      by_cases hch : ch = '\n'
      · simp only [step, if_neg hdetect, if_pos hch]
        rw [ih _ _ _ fun _ => rfl]
        refine Prod.ext (by rw [decide_eq_true hch]) ?_
        rw [decide_eq_true hch]
        exact congrArg (List.foldl (join combineSegments) · _) hpush
      · simp only [step, if_neg hdetect, if_neg hch]
        rw [ih _ _ _ fun h => absurd h hdetect]
        have hsame : ({ parser with detectTag := decide (ch = '\n') } : TaggedLineParser τ) = parser := by
          rw [decide_eq_false hch, ← eq_false_of_ne_true hdetect]
        rw [hsame]
        refine Prod.ext rfl (congrArg (List.foldl (join combineSegments) · _) ?_)
        rw [withRun, if_neg (by simp)]
        exact hpush

theorem parse_eq (delta : Text) : parser.parse delta =
      (coalesce combineSegments (parser.steps delta).2, (parser.steps delta).1) := by
  rw [parse, parseLoop_eq delta parser [] [] fun _ => rfl]
  rfl

/-- The segments of the end of a text, before they are joined. -/
def ending : List (TaggedLineSegment τ) :=
  if parser.lineBuffer = [] then parser.activeTag.toList.map .tagEnd
  else (parser.lineSegment parser.lineBuffer).1 ::
    (parser.lineSegment parser.lineBuffer).2.toList.map .tagEnd

theorem finish_eq : parser.finish.1 = coalesce combineSegments parser.ending := by
  have hend : ∀ (tag : τ) (segments : List (TaggedLineSegment τ)),
      pushSegment segments (.tagEnd tag) = join combineSegments segments (.tagEnd tag) :=
    fun tag => pushSegment_eq_join id
  by_cases hbuffer : parser.lineBuffer = []
  · rw [ending, finish, hbuffer]
    rcases parser.activeTag with - | tag <;> rfl
  · have hline := pushSegment_eq_join (parser.not_isEmptyText_lineSegment hbuffer) []
    rw [ending, if_neg hbuffer, finish, if_neg (by simpa using hbuffer)]
    rcases hactive : (parser.lineSegment parser.lineBuffer).2 with - | tag
    · simp [hactive, hline]
      rfl
    · simp [hactive, hline, hend]
      rfl

/-! ### Where the segments stand -/

/-- A line that is a tag, apart from the whitespace around it. -/
def IsTagLine (specs : List (TagSpec τ)) (text : TagSpec τ → Text) (tag : τ) (line : Text) : Prop :=
  (∃ spec ∈ specs, spec.tag = tag ∧ text spec = lineSlug line) ∧ '\n' ∉ line.dropLast

/-- What a segment stands for: the block before it, its text or its tag line, the block behind it. -/
def Reads (specs : List (TagSpec τ)) : TaggedLineSegment τ → Option τ → Text → Option τ → Prop
  | .normal text, before, piece, after => before = none ∧ piece = text ∧ after = none
  | .tagDelta tag text, before, piece, after => before = some tag ∧ piece = text ∧ after = some tag
  | .tagStart tag, before, line, after =>
    before = none ∧ IsTagLine specs (·.openTag) tag line ∧ after = some tag
  | .tagEnd tag, before, line, after =>
    before = some tag ∧ IsTagLine specs (·.closeTag) tag line ∧ after = none

/-- The blocks and texts that a further segment can lead to. -/
def readings (specs : List (TagSpec τ)) (before : Option τ → Text → Prop)
    (segment : TaggedLineSegment τ) (active : Option τ) (text : Text) : Prop :=
  ∃ opened read piece, before opened read ∧ Reads specs segment opened piece active ∧
    text = read ++ piece

/-- The segments of a text in chunks. -/
def segmentsOf : TaggedLineParser τ → List Text → List (TaggedLineSegment τ)
  | parser, [] => parser.finish.1
  | parser, chunk :: chunks => (parser.parse chunk).1 ++ (parser.parse chunk).2.segmentsOf chunks

/-- The text so far has been read, up to the line that is held back. -/
structure Follows (before : Option τ → Text → Prop) (text : Text) : Prop where
  line : '\n' ∉ parser.lineBuffer
  detects : parser.detectTag = false → parser.lineBuffer = []
  read : ∃ piece, text = piece ++ parser.lineBuffer ∧ before parser.activeTag piece

theorem readings_combine {specs : List (TagSpec τ)} (before : Option τ → Text → Prop)
    (a b c : TaggedLineSegment τ) (h : combineSegments a b = some c) :
    readings specs (readings specs before a) b = readings specs before c := by
  rcases combineSegments_eq_some.mp h with ⟨s, t, rfl, rfl, rfl⟩ | ⟨tag, s, t, rfl, rfl, rfl⟩
  all_goals
    ext active text
    simp [readings, Reads]

omit [DecidableEq τ] in
theorem reads_textSegment (text : Text) :
    Reads parser.specs (parser.textSegment text) parser.activeTag text parser.activeTag := by
  unfold textSegment
  split
  · next tag h => exact ⟨h, rfl, h⟩
  · next h => exact ⟨h, rfl, h⟩

theorem reads_lineSegment {line : Text} (hline : '\n' ∉ line.dropLast) :
    Reads parser.specs (parser.lineSegment line).1 parser.activeTag line
      (parser.lineSegment line).2 := by
  have hfind : ∀ {text : TagSpec τ → Text} {tag : τ},
      (parser.specs.find? fun spec => text spec = lineSlug line).map (·.tag) = some tag →
        IsTagLine parser.specs text tag line := by
    intro text tag h
    obtain ⟨spec, hspec, rfl⟩ := Option.map_eq_some_iff.mp h
    exact ⟨⟨spec, mem_of_find?_eq_some hspec, rfl, by simpa using find?_some hspec⟩, hline⟩
  unfold lineSegment
  split
  · next tag hopen hactive => exact ⟨hactive, hfind hopen, rfl⟩
  split
  · next tag hclose =>
    split
    · next hactive => exact ⟨hactive, hfind hclose, rfl⟩
    · exact parser.reads_textSegment line
  · exact parser.reads_textSegment line

variable {parser} {before : Option τ → Text → Prop} {text : Text}

/-- **One character.** -/
theorem Follows.step (h : parser.Follows before text) (ch : Char) :
    (parser.step ch).1.Follows ((parser.step ch).2.foldl (readings parser.specs) before)
      (text ++ [ch]) := by
  obtain ⟨piece, rfl, hmem⟩ := h.read
  unfold TaggedLineParser.step
  rw [append_assoc]
  split
  · dsimp only
    split
    · refine ⟨not_mem_nil, nofun, _, (append_nil _).symm, _, _, _, hmem, ?_, rfl⟩
      exact parser.reads_lineSegment (by rw [dropLast_concat]; exact h.line)
    · next hch =>
      split
      · next hdetect _ =>
        exact ⟨by simpa using ⟨h.line, Ne.symm hch⟩, fun h => absurd h (by simp [hdetect]), piece,
          rfl, hmem⟩
      · exact ⟨not_mem_nil, fun _ => rfl, _, (append_nil _).symm, _, _, _, hmem,
          parser.reads_textSegment _, rfl⟩
  · next hdetect =>
    have hnil := h.detects (eq_false_of_ne_true hdetect)
    exact ⟨h.line, fun _ => hnil, piece ++ [ch], by simp [hnil], _, _, _, hmem,
      parser.reads_textSegment _, rfl⟩

theorem specs_step (ch : Char) : (parser.step ch).1.specs = parser.specs := by
  unfold TaggedLineParser.step
  split
  · dsimp only
    split_ifs <;> rfl
  · rfl

theorem specs_steps (delta : Text) : (parser.steps delta).1.specs = parser.specs := by
  induction delta generalizing parser with
  | nil => rfl
  | cons ch _ ih => exact ih.trans (specs_step ch)

theorem Follows.steps (h : parser.Follows before text) (delta : Text) :
    (parser.steps delta).1.Follows ((parser.steps delta).2.foldl (readings parser.specs) before)
      (text ++ delta) := by
  induction delta generalizing parser before text with
  | nil => rwa [append_nil]
  | cons ch rest ih =>
    have hrest := ih (h.step ch)
    rw [append_assoc, specs_step, ← foldl_append] at hrest
    exact hrest

theorem Follows.segmentsOf (h : parser.Follows before text) (chunks : List Text) :
    ∃ written active, parser.segmentsOf chunks = written ++ active.toList.map .tagEnd ∧
      written.foldl (readings parser.specs) before active (text ++ chunks.flatten) := by
  induction chunks generalizing parser before text with
  | nil =>
    obtain ⟨piece, rfl, hmem⟩ := h.read
    rw [flatten_nil, append_nil, TaggedLineParser.segmentsOf, finish_eq, ending]
    split
    · next hnil =>
      refine ⟨[], parser.activeTag, ?_, by rwa [hnil, append_nil]⟩
      rcases parser.activeTag with - | tag <;> rfl
    · have hread := parser.reads_lineSegment fun hline => h.line (mem_of_mem_dropLast hline)
      generalize parser.lineSegment parser.lineBuffer = segment at hread
      refine ⟨[segment.1], segment.2, ?_, _, _, _, hmem, hread, rfl⟩
      rcases segment with ⟨_ | _ | _ | _, - | tag⟩ <;> rfl
  | cons chunk chunks ih =>
    obtain ⟨written, active, hsegments, hread⟩ := ih (h.steps chunk)
    rw [specs_steps, append_assoc, ← foldl_eq_of_combine combineSegments _ readings_combine before,
      ← foldl_append] at hread
    refine ⟨_, active, ?_, hread⟩
    rw [TaggedLineParser.segmentsOf, parse_eq, hsegments, append_assoc]

/-- **Bracketed and lossless.**  However a text is cut, its segments are read from outside any block:
a text stands in the block it belongs to, a tag opens or closes a block by a line of its own, and the
pieces are the text.  A block that is still open at the end is closed there. -/
theorem segmentsOf_bracketed_lossless (specs : List (TagSpec τ)) (chunks : List Text) :
    ∃ written active, (new specs).segmentsOf chunks = written ++ active.toList.map .tagEnd ∧
      written.foldl (readings specs) (fun opened read => opened = none ∧ read = []) active
        chunks.flatten :=
  Follows.segmentsOf ⟨not_mem_nil, fun _ => rfl, [], rfl, rfl, rfl⟩ chunks

end TaggedLineParser

end Lines

/-! ### Segments of the plan -/

/-- Two texts of one kind are one text. -/
def combinePlanSegments : ProposedPlanSegment → ProposedPlanSegment → Option ProposedPlanSegment
  | .normal text, .normal delta => some (.normal (text ++ delta))
  | .proposedPlanDelta text, .proposedPlanDelta delta => some (.proposedPlanDelta (text ++ delta))
  | _, _ => none

/-- Segments with adjacent texts of the same kind merged. -/
def mergeSegments (segments : List ProposedPlanSegment) : List ProposedPlanSegment :=
  coalesce combinePlanSegments segments

theorem combinePlanSegments_mapSegment (a b : TaggedLineSegment PlanTag) :
    combinePlanSegments (mapSegment a) (mapSegment b) = (combineSegments a b).map mapSegment := by
  cases a <;> cases b <;> rfl

theorem mapSegment_surjective : mapSegment.Surjective
  | .normal text => ⟨.normal text, rfl⟩
  | .proposedPlanStart => ⟨.tagStart .proposedPlan, rfl⟩
  | .proposedPlanDelta text => ⟨.tagDelta .proposedPlan text, rfl⟩
  | .proposedPlanEnd => ⟨.tagEnd .proposedPlan, rfl⟩

theorem joins_combinePlanSegments : Joins combinePlanSegments :=
  joins_combineSegments.map mapSegment_surjective combinePlanSegments_mapSegment

theorem map_coalesce_segments (segments : List (TaggedLineSegment PlanTag)) :
    (coalesce combineSegments segments).map mapSegment =
      mergeSegments (segments.map mapSegment) :=
  map_coalesce combinePlanSegments_mapSegment segments

variable (segments : List ProposedPlanSegment)

/-- The text that is shown is that of the merged segments. -/
theorem flatMap_mergeSegments :
    (mergeSegments segments).flatMap (·.visible) = segments.flatMap (·.visible) := by
  have hfold : ∀ (l : List ProposedPlanSegment) (acc : Text),
      l.foldl (fun text segment => text ++ segment.visible) acc = acc ++ l.flatMap (·.visible) := by
    intro l
    induction l with
    | nil => simp
    | cons _ _ ih => simp [ih]
  have hmerged := foldl_eq_of_combine combinePlanSegments
    (fun (text : Text) segment => text ++ segment.visible) (fun g a b c h => ?_) [] segments
  · rw [hfold, hfold] at hmerged
    exact hmerged
  · cases a <;> cases b <;> cases h <;> simp [ProposedPlanSegment.visible]

/-- The text of the plan is that of the merged segments. -/
theorem planText_mergeSegments : planText (mergeSegments segments) = planText segments := by
  have hmerged := foldl_eq_of_combine combinePlanSegments planTextStep
    (fun g a b c h => ?_) ([], false) segments
  · unfold planText
    rw [mergeSegments, hmerged]
  · cases a <;> cases b <;> cases h <;> simp [planTextStep]

/-! ### The text of the assistant -/

/-- All the segments that a plan parser gives for a text. -/
def proposedPlanSegments (text : Text) : List ProposedPlanSegment :=
  (ProposedPlanParser.new.pushStr text).1.extracted ++
    (ProposedPlanParser.new.pushStr text).2.finish.1.extracted

section Assistant

/-- The segments that a text gives from some state on, before they are joined. -/
def planReading (parser : TaggedLineParser PlanTag) (text : Text) : List ProposedPlanSegment :=
  ((parser.steps text).2 ++ (parser.steps text).1.ending).map mapSegment

theorem planReading_append (parser : TaggedLineParser PlanTag) (s t : Text) :
    planReading parser (s ++ t) =
      (parser.steps s).2.map mapSegment ++ planReading (parser.steps s).1 t := by
  simp [planReading, TaggedLineParser.steps_append, append_assoc]

variable (plan : ProposedPlanParser) (text : Text)

theorem extracted_pushStr :
    (plan.pushStr text).1.extracted = mergeSegments ((plan.parser.steps text).2.map mapSegment) ∧
      (plan.pushStr text).2.parser = (plan.parser.steps text).1 := by
  unfold ProposedPlanParser.pushStr
  rw [TaggedLineParser.parse_eq]
  exact ⟨map_coalesce_segments _, rfl⟩

theorem extracted_finish :
    plan.finish.1.extracted = mergeSegments (plan.parser.ending.map mapSegment) := by
  show plan.parser.finish.1.map mapSegment = _
  rw [TaggedLineParser.finish_eq, map_coalesce_segments]

variable (l : List ProposedPlanSegment)

theorem mergeSegments_append (l' : List ProposedPlanSegment) :
    mergeSegments (mergeSegments l ++ mergeSegments l') = mergeSegments (l ++ l') :=
  coalesce_append joins_combinePlanSegments l l'

theorem mergeSegments_mergeSegments : mergeSegments (mergeSegments l) = mergeSegments l := by
  have happend := mergeSegments_append l []
  rwa [append_nil, show mergeSegments [] = [] from rfl, append_nil] at happend

/-- The parser with a state of its own for the citations. -/
def CitationStreamParser.withState (state : InlineState CitationTag) : CitationStreamParser :=
  ⟨⟨[citationSpec], state⟩⟩

/-- What citations and text a text in chunks gives from some state on, with its end. -/
def citationReading : InlineState CitationTag → List Text → StreamTextChunk Text
  | state, [] => (CitationStreamParser.withState state).finish.1
  | state, chunk :: rest =>
    (CitationStreamParser.contents (scan citationSpec (state.more chunk)).1).append
      (citationReading (scan citationSpec (state.more chunk)).2 rest)

namespace AssistantTextStreamParser

variable (state : InlineState CitationTag) (plan : ProposedPlanParser) (chunks : List Text)

/-- **What is collected from the chunks**, outside of plan mode. -/
theorem collect_text :
    collect ⟨false, .withState state, plan⟩ chunks =
      ⟨(citationReading state chunks).visibleText, (citationReading state chunks).extracted, []⟩ := by
  induction chunks generalizing state with
  | nil => rfl
  | cons chunk _ ih =>
    have hrest := ih (scan citationSpec (state.more chunk)).2
    have hpush : pushStr ⟨false, .withState state, plan⟩ chunk =
        (⟨(CitationStreamParser.contents (scan citationSpec (state.more chunk)).1).visibleText,
            (CitationStreamParser.contents (scan citationSpec (state.more chunk)).1).extracted, []⟩,
          ⟨false, .withState (scan citationSpec (state.more chunk)).2, plan⟩) := rfl
    simp only [collect, hpush, hrest]
    rfl

/-- The end of a text in plan mode. -/
theorem finish_plan {visible : Text}
    (hvisible : visible = (CitationStreamParser.withState state).finish.1.visibleText) :
    (finish ⟨true, .withState state, plan⟩).1 =
      ⟨(plan.pushStr visible).1.visibleText ++ (plan.pushStr visible).2.finish.1.visibleText,
        (CitationStreamParser.withState state).finish.1.extracted,
        (plan.pushStr visible).1.extracted ++ (plan.pushStr visible).2.finish.1.extracted⟩ := by
  have hfinish : (finish ⟨true, .withState state, plan⟩).1 =
      { (if (plan.pushStr visible).2.finish.1.isEmpty then
            ⟨(plan.pushStr visible).1.visibleText, [], (plan.pushStr visible).1.extracted⟩
          else ⟨(plan.pushStr visible).1.visibleText ++ (plan.pushStr visible).2.finish.1.visibleText,
            [], (plan.pushStr visible).1.extracted ++ (plan.pushStr visible).2.finish.1.extracted⟩ :
          AssistantTextChunk) with
        citations := (CitationStreamParser.withState state).finish.1.extracted } := by
    rw [hvisible]
    rfl
  rw [hfinish]
  by_cases hempty : (plan.pushStr visible).2.finish.1.isEmpty = true
  · -- an empty end can be appended as well
    obtain ⟨htext, hsegments⟩ := Bool.and_eq_true_iff.mp hempty
    rw [if_pos hempty, List.isEmpty_iff.mp htext, List.isEmpty_iff.mp hsegments, append_nil,
      append_nil]
  · rw [if_neg hempty]

/-- **What is collected from the chunks** in plan mode: the plan is read from the text without the
citations, whatever the chunks are. -/
theorem collect_plan :
    (collect ⟨true, .withState state, plan⟩ chunks).citations =
        (citationReading state chunks).extracted ∧
      (collect ⟨true, .withState state, plan⟩ chunks).visibleText =
        (collect ⟨true, .withState state, plan⟩ chunks).planSegments.flatMap (·.visible) ∧
      mergeSegments (collect ⟨true, .withState state, plan⟩ chunks).planSegments =
        mergeSegments (planReading plan.parser (citationReading state chunks).visibleText) := by
  induction chunks generalizing state plan with
  | nil =>
    rw [collect, finish_plan state plan rfl]
    refine ⟨rfl, ?_, ?_⟩
    · rw [flatMap_append]
      rfl
    · obtain ⟨hextracted, hparser⟩ :=
        extracted_pushStr plan (CitationStreamParser.withState state).finish.1.visibleText
      rw [extracted_finish, hextracted, hparser, mergeSegments_append, ← map_append]
      rfl
  | cons chunk rest ih =>
    obtain ⟨visible, hvisible⟩ : ∃ visible, visible =
      (CitationStreamParser.contents (scan citationSpec (state.more chunk)).1).visibleText := ⟨_, rfl⟩
    have hpush : pushStr ⟨true, .withState state, plan⟩ chunk =
        (⟨(plan.pushStr visible).1.visibleText,
            (CitationStreamParser.contents (scan citationSpec (state.more chunk)).1).extracted,
            (plan.pushStr visible).1.extracted⟩,
          ⟨true, .withState (scan citationSpec (state.more chunk)).2, (plan.pushStr visible).2⟩) := by
      rw [hvisible]
      rfl
    obtain ⟨hcitations, htext, hsegments⟩ :=
      ih (scan citationSpec (state.more chunk)).2 (plan.pushStr visible).2
    simp only [collect, hpush]
    refine ⟨?_, ?_, ?_⟩
    · rw [hcitations]
      rfl
    · rw [htext, flatMap_append]
      rfl
    · obtain ⟨hextracted, hparser⟩ := extracted_pushStr plan visible
      have hreading : (citationReading state (chunk :: rest)).visibleText = visible ++
          (citationReading (scan citationSpec (state.more chunk)).2 rest).visibleText := by
        rw [hvisible]
        rfl
      rw [hreading, planReading_append, ← hparser, hextracted, ← mergeSegments_append, hsegments,
        mergeSegments_mergeSegments, mergeSegments_append]

end AssistantTextStreamParser

/-- The end of a text without more chunks. -/
theorem citationReading_append (state : InlineState CitationTag) (chunks : List Text) :
    citationReading state chunks =
      (CitationStreamParser.contents (scanAll citationSpec state chunks).1).append
        (CitationStreamParser.withState (scanAll citationSpec state chunks).2).finish.1 := by
  induction chunks generalizing state with
  | nil => rfl
  | cons _ _ ih =>
    rw [citationReading, ih, ← StreamTextChunk.append_assoc]
    simp [scanAll, CitationStreamParser.contents, StreamTextChunk.append]

/-- **The citations and the text without them do not depend on the chunks.** -/
theorem citationReading_start (chunks : List Text) :
    citationReading ⟨[], none⟩ chunks =
      ⟨(stripCitations chunks.flatten).1, (stripCitations chunks.flatten).2⟩ := by
  rw [citationReading_append, scanAll_start]
  rfl

/-- The plan that is read from a whole text. -/
theorem mergeSegments_proposedPlanSegments :
    mergeSegments (proposedPlanSegments text) =
      mergeSegments (planReading ProposedPlanParser.new.parser text) := by
  obtain ⟨hextracted, hparser⟩ := extracted_pushStr .new text
  rw [proposedPlanSegments, extracted_finish, hextracted, hparser, mergeSegments_append,
    ← map_append]
  rfl

end Assistant

open AssistantTextStreamParser in
/-- **The chunks of a text do not show.**  What is collected from a text in chunks is, but for where
texts are split into segments, what the whole text gives; and this is what stripping the
citations and then reading the plan gives. -/
theorem collect_eq_whole (planMode : Bool) (chunks : List Text) :
    let streamed := (AssistantTextStreamParser.new planMode).collect chunks
    let whole := (AssistantTextStreamParser.new planMode).collect [chunks.flatten]
    let (visible, citations) := stripCitations chunks.flatten
    (streamed.visibleText = whole.visibleText ∧ streamed.citations = whole.citations ∧
        mergeSegments streamed.planSegments = mergeSegments whole.planSegments) ∧
      streamed.citations = citations ∧
      if planMode then
        streamed.visibleText = stripProposedPlanBlocks visible ∧
          mergeSegments streamed.planSegments = mergeSegments (proposedPlanSegments visible) ∧
          planText streamed.planSegments = extractProposedPlanText visible
      else streamed.visibleText = visible ∧ streamed.planSegments = [] := by
  have hwhole : citationReading ⟨[], none⟩ [chunks.flatten] = citationReading ⟨[], none⟩ chunks := by
    rw [citationReading_start, citationReading_start, flatten_singleton]
  have hread := citationReading_start chunks
  cases planMode with
  | false =>
    have hstreamed : (AssistantTextStreamParser.new false).collect chunks = _ :=
      collect_text ⟨[], none⟩ .new chunks
    have hone : (AssistantTextStreamParser.new false).collect [chunks.flatten] = _ :=
      collect_text ⟨[], none⟩ .new [chunks.flatten]
    rw [hwhole] at hone
    rw [hstreamed, hone, hread]
    exact ⟨⟨rfl, rfl, rfl⟩, rfl, rfl, rfl⟩
  | true =>
    obtain ⟨hcitations, htext, hsegments⟩ := collect_plan ⟨[], none⟩ .new chunks
    obtain ⟨hcitations', htext', hsegments'⟩ := collect_plan ⟨[], none⟩ .new [chunks.flatten]
    rw [hwhole] at hcitations' hsegments'
    have hsame := hsegments.trans hsegments'.symm
    have hplan : mergeSegments ((AssistantTextStreamParser.new true).collect chunks).planSegments =
        mergeSegments (proposedPlanSegments (stripCitations chunks.flatten).1) := by
      rw [hread] at hsegments
      rw [mergeSegments_proposedPlanSegments]
      exact hsegments
    rw [hread] at hcitations
    refine ⟨⟨?_, hcitations.trans ?_, hsame⟩, hcitations, ?_, hplan, ?_⟩
    · -- the text that is shown is read off the merged segments
      exact htext.trans (by
        rw [← flatMap_mergeSegments, hsame, flatMap_mergeSegments]
        exact htext'.symm)
    · rw [hread] at hcitations'
      exact hcitations'.symm
    · refine htext.trans ?_
      rw [← flatMap_mergeSegments]
      refine (congrArg _ hplan).trans ?_
      rw [flatMap_mergeSegments]
      exact flatMap_append ..
    · rw [← planText_mergeSegments, hplan, planText_mergeSegments]
      rfl

end StreamParser

end CodexPlus
