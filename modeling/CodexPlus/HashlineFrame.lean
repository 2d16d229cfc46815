/-
CodexPlus/HashlineFrame.lean

What a change of a file by fuzz_view_edit leaves of the other lines.

`ownLines` cuts a text into the lines of the tool, each with the line end that stands
behind it in the text, so nothing is lost.  `close` puts such lines together again: a
line keeps its own end, a line without one gets the line end of the file when another
line follows, and the last line has an end exactly when the file had one.  The file a
mutation writes is the one closed in this way, unless the last line stays and the text
ends with something the parser does not keep (`KeepsEnd`).
-/
import CodexPlus.HashlineAnchors

namespace CodexPlus

open List

namespace Hashline

open EncodedLines FileRead PairSplit

/-! ### Lines with their own ends -/

/-- A line with what stands behind it. -/
structure OwnLine where
  line : Text
  ending : Text
  deriving DecidableEq, Repr

def OwnLine.text (own : OwnLine) : Text := own.line ++ own.ending

/-- A line that is followed by another one. -/
def OwnLine.followed (newline : Text) (own : OwnLine) : Text :=
  own.line ++ if own.ending = [] then newline else own.ending

/-- A file of lines that keep their ends. -/
def close (newline : Text) (final : Bool) : List OwnLine → Text
  | [] => if final then newline else []
  | [own] => if final then own.followed newline else own.line
  | own :: next :: rest => own.followed newline ++ close newline final (next :: rest)

/-- A text without the line end behind its last line, and with all else. -/
def openEnd (text : Text) : Text := if text.getLast? = some '\n' then body text else text

/-- The line end behind the last line. -/
def finalNewline (text : Text) : Text := text.drop (openEnd text).length

/-- The lines between the line ends of the kind the file has, with all they hold. -/
def wholeLines (text : Text) : List Text :=
  if hasPair '\r' '\n' text then splitPair '\r' '\n' (openEnd text) else (openEnd text).splitOn '\n'

/-- The lines of a text, each with its own end. -/
def ownLines (text : Text) : List OwnLine :=
  (wholeLines text).dropLast.map (⟨·, (Document.parse text).newline.text⟩) ++
    (wholeLines text).getLast?.toList.map (⟨·, finalNewline text⟩)

/-- The end of the text is one that a document can hold. -/
def KeepsEnd (text : Text) : Prop :=
  text.getLast? ≠ some '\r' ∧
    (hasPair '\r' '\n' text → text.getLast? = some '\n' → finalNewline text = ['\r', '\n'])

instance (text : Text) : Decidable (KeepsEnd text) := inferInstanceAs (Decidable (_ ∧ _))

/-! ### Closing -/

theorem close_append (newline : Text) (final : Bool) (front : List OwnLine) (own : OwnLine)
    (rest : List OwnLine) :
    close newline final (front ++ own :: rest) =
      front.flatMap (·.followed newline) ++ close newline final (own :: rest) := by
  induction front with
  | nil => rfl
  | cons _ front ih =>
    rw [flatMap_cons, append_assoc, ← ih]
    cases front with
    | nil | cons => rfl

theorem intercalate_concat_flatMap (sep last : Text) (init : List Text) :
    sep.intercalate (init ++ [last]) = init.flatMap (· ++ sep) ++ last := by
  induction init with
  | nil => simp
  | cons _ init ih =>
    rw [flatMap_cons, append_assoc, ← ih]
    cases init with
    | nil => simp
    | cons => simp [intercalate_cons_cons]

theorem followed_newline {newline : Text} (h : newline ≠ []) (line : Text) :
    OwnLine.followed newline ⟨line, newline⟩ = line ++ newline := by
  rw [OwnLine.followed, if_neg h]

theorem flatMap_followed_newline {newline : Text} (h : newline ≠ []) (lines : List Text) :
    (lines.map (OwnLine.mk · newline)).flatMap (·.followed newline) =
      lines.flatMap (· ++ newline) := by
  rw [flatMap_map]
  exact congrArg (lines.flatMap ·) (funext (followed_newline h))

/-- Rendering a document closes its lines. -/
theorem render_eq_close (doc : Document) :
    doc.render = close doc.newline.text doc.trailingNewline
      (doc.lines.map (OwnLine.mk · doc.newline.text)) := by
  have hnewline := doc.newline.text_ne_nil
  rcases eq_nil_or_concat' doc.lines with hnil | ⟨init, last, hlines⟩
  · rw [Document.render, hnil]
    rcases doc.trailingNewline with - | -
    · rfl
    · rfl
  · rw [Document.render, hlines, intercalate_concat_flatMap, map_append, map_singleton,
      close_append, flatMap_followed_newline hnewline]
    rcases doc.trailingNewline with - | -
    · rfl
    · show _ = _ ++ OwnLine.followed _ _
      rw [followed_newline hnewline, ← append_assoc]
      rfl

/-! ### The end of a text -/

theorem openEnd_isPrefix (text : Text) : openEnd text <+: text := by
  unfold openEnd
  split
  · exact body_isPrefix text
  · exact prefix_refl text

theorem openEnd_append_finalNewline (text : Text) : openEnd text ++ finalNewline text = text :=
  prefix_iff_eq_append.mp (openEnd_isPrefix text)

/-- The line ends a text can have. -/
theorem finalNewline_cases (text : Text) :
    text.getLast? ≠ some '\n' ∧ finalNewline text = [] ∨
      text.getLast? = some '\n' ∧
        (finalNewline text = ['\n'] ∨
          finalNewline text = ['\r', '\n'] ∧ hasPair '\r' '\n' text) := by
  by_cases hend : text.getLast? = some '\n'
  · refine .inr ⟨hend, ?_⟩
    have hopen : openEnd text = body text := if_pos hend
    obtain ⟨init, rfl⟩ := getLast?_eq_some_iff.mp hend
    rw [finalNewline, hopen, body_lf]
    rcases popLast_cases '\r' init with ⟨-, hpop⟩ | ⟨front, rfl, hpop⟩
    · rw [hpop, drop_left]
      exact .inl rfl
    · rw [hpop, append_assoc, drop_left]
      refine .inr ⟨rfl, hasPair_append.mpr (.inr (.inr ?_))⟩
      simp [hasPair]
  · refine .inl ⟨hend, ?_⟩
    rw [finalNewline, openEnd, if_neg hend, drop_length]

/-- The lines that a document keeps, and what it does not keep of the last one. -/
structure Kept (text : Text) (init : List Text) (last stray : Text) : Prop where
  lines : (Document.parse text).lines = init ++ [last]
  whole : wholeLines text = init ++ [last ++ stray]
  stray_iff : stray = [] ↔ text.getLast? ≠ some '\r'

theorem newline_parse (text : Text) :
    (Document.parse text).newline = if hasPair '\r' '\n' text then .crlf else .lf := rfl

variable {text : Text}

/-- No piece between Unix line ends ends with a carriage return, but for the last one. -/
theorem lfLines_pieces (h : ¬ hasPair '\r' '\n' text) :
    ∃ init last, text.splitOn '\n' = init ++ [last] ∧
      lfLines text = init ++ [popLast '\r' last] := by
  obtain ⟨init, last, hpieces⟩ := (eq_nil_or_concat' (text.splitOn '\n')).resolve_left
    (splitOn_ne_nil '\n' text)
  have htext : text = ['\n'].intercalate (init ++ [last]) := by
    rw [← hpieces, intercalate_splitOn]
  have hplain : init.map (popLast '\r') = init := by
    refine (map_congr_left fun piece hpiece => popLast_of_ne fun hend => h ?_).trans
      (map_id init)
    have hne : init ≠ [] := ne_nil_of_mem hpiece
    rw [htext, intercalate_concat _ _ hne]
    exact hasPair_append.mpr (.inl (hasPair_intercalate_of_mem hpiece hend))
  refine ⟨init, last, hpieces, ?_⟩
  rw [lfLines, hpieces, map_append, hplain, map_singleton]

variable {init : List Text} {last : Text}

/-- A symbol other than the line end goes to the last line. -/
theorem splitOn_concat {c : Char} (hc : c ≠ '\n') (h : text.splitOn '\n' = init ++ [last]) :
    (text ++ [c]).splitOn '\n' = init ++ [last ++ [c]] := by
  have htext : text = ['\n'].intercalate (init ++ [last]) := by rw [← h, intercalate_splitOn]
  have hjoin : text ++ [c] = ['\n'].intercalate (init ++ [last ++ [c]]) := by
    rw [intercalate_concat_flatMap, htext, intercalate_concat_flatMap, append_assoc]
  rw [hjoin]
  refine splitOn_intercalate '\n' (fun line hline => ?_) (by simp)
  have hpiece := LineLog.not_mem_of_mem_splitOn '\n' text
  rw [h] at hpiece
  rcases mem_append.mp hline with hline | hline
  · exact hpiece line (mem_append_left _ hline)
  · rw [mem_singleton.mp hline, mem_append, mem_singleton]
    rintro (hmem | rfl)
    · exact hpiece last (by simp) hmem
    · exact hc rfl

theorem splitPair_concat (h : splitPair '\r' '\n' text = init ++ [last]) :
    splitPair '\r' '\n' (text ++ ['\r']) = init ++ [last ++ ['\r']] := by
  have htext : text = ['\r', '\n'].intercalate (init ++ [last]) := by
    rw [← h, intercalate_splitPair return_ne_newline]
  have hjoin : text ++ ['\r'] = ['\r', '\n'].intercalate (init ++ [last ++ ['\r']]) := by
    rw [intercalate_concat_flatMap, htext, intercalate_concat_flatMap, append_assoc]
  rw [hjoin]
  refine splitPair_intercalate return_ne_newline (by simp) fun line hline => ?_
  have hpiece := not_hasPair_of_mem_splitPair return_ne_newline text
  rw [h] at hpiece
  rcases mem_append.mp hline with hline | hline
  · exact hpiece line (mem_append_left _ hline)
  rw [mem_singleton.mp hline, hasPair_append]
  rintro (hpair | ⟨-, hhead⟩ | hpair)
  · exact hpiece last (by simp) hpair
  · exact return_ne_newline (Option.some.inj hhead)
  · cases hpair

theorem body_return (text : Text) : body (text ++ ['\r']) = text := by
  have hpop : popLast '\n' (text ++ ['\r']) = text ++ ['\r'] := popLast_of_ne (by simp)
  rw [body, hpop, popLast_concat]

theorem openEnd_eq_body (h : text.getLast? ≠ some '\r') : openEnd text = body text := by
  by_cases hend : text.getLast? = some '\n'
  · exact if_pos hend
  · rw [openEnd, if_neg hend, body, popLast_of_ne hend, popLast_of_ne h]

/-- In a text with Unix line ends, what stands before the last one ends with no return. -/
theorem getLast?_body (h : text.getLast? ≠ some '\r')
    (hpair : ¬ hasPair '\r' '\n' text) : (body text).getLast? ≠ some '\r' := by
  intro hbody
  have hsplit := openEnd_append_finalNewline text
  rw [openEnd_eq_body h] at hsplit
  rcases finalNewline_cases text with ⟨-, hfinal⟩ | ⟨-, hfinal | ⟨-, hfinal⟩⟩
  · rw [hfinal, append_nil] at hsplit
    exact h (hsplit ▸ hbody)
  · rw [hfinal] at hsplit
    exact hpair (hsplit ▸ hasPair_append.mpr (.inr (.inl ⟨hbody, rfl⟩)))
  · exact hpair hfinal

theorem not_hasPair_of_isPrefix {part : Text} (h : part <+: text)
    (hpair : ¬ hasPair '\r' '\n' text) : ¬ hasPair '\r' '\n' part := by
  obtain ⟨rest, rfl⟩ := h
  exact fun hpart => hpair (hasPair_append.mpr (.inl hpart))

/-- **What a document keeps of a text**: all lines, but for carriage returns behind the last. -/
theorem exists_kept (hne : body text ≠ []) : ∃ init last stray, Kept text init last stray := by
  by_cases hret : text.getLast? = some '\r'
  · -- at least one return is lost
    have hopen : openEnd text = text := if_neg (by rw [hret]; simp)
    have hnot : ∀ stray : Text, stray ≠ [] → (stray = [] ↔ text.getLast? ≠ some '\r') :=
      fun _ hstray => ⟨fun h => absurd h hstray, fun h => absurd hret h⟩
    obtain ⟨front, htext⟩ := getLast?_eq_some_iff.mp hret
    have hbody : body text = front := by rw [htext, body_return]
    by_cases hpair : hasPair '\r' '\n' text
    · obtain ⟨init, last, hlines⟩ := (eq_nil_or_concat' (splitPair '\r' '\n' front)).resolve_left
        (splitPair_ne_nil return_ne_newline front)
      refine ⟨init, last, ['\r'], ?_, ?_, hnot _ (by simp)⟩
      · rw [parse_crlf hne hpair, hbody, hlines]
      · rw [wholeLines, if_pos hpair, hopen, htext, splitPair_concat hlines]
    · obtain ⟨init, last, hpieces, hlines⟩ := lfLines_pieces
        (not_hasPair_of_isPrefix (hbody ▸ body_isPrefix text) hpair)
      obtain ⟨rest, hrest⟩ := popLast_isPrefix '\r' last
      refine ⟨init, popLast '\r' last, rest ++ ['\r'], ?_, ?_, hnot _ (by simp)⟩
      · rw [parse_lf hne hpair, hbody, hlines]
      · rw [wholeLines, if_neg hpair, hopen, htext, splitOn_concat (by decide) hpieces,
          ← append_assoc, hrest]
  · -- the lines are whole
    have hopen := openEnd_eq_body hret
    by_cases hpair : hasPair '\r' '\n' text
    · obtain ⟨init, last, hlines⟩ :=
        (eq_nil_or_concat' (splitPair '\r' '\n' (body text))).resolve_left
          (splitPair_ne_nil return_ne_newline _)
      refine ⟨init, last, [], ?_, ?_, iff_of_true rfl hret⟩
      · rw [parse_crlf hne hpair, hlines]
      · rw [wholeLines, if_pos hpair, hopen, hlines, append_nil]
    · obtain ⟨init, last, hpieces, hlines⟩ := lfLines_pieces
        (not_hasPair_of_isPrefix (body_isPrefix text) hpair)
      have hlast : popLast '\r' last = last := by
        refine popLast_of_ne fun hend => getLast?_body hret hpair ?_
        have hjoin : body text = ['\n'].intercalate (init ++ [last]) := by
          rw [← hpieces, intercalate_splitOn]
        rw [hjoin, getLast?_intercalate ['\n'] init (by rintro rfl; cases hend), hend]
      refine ⟨init, last, [], ?_, ?_, iff_of_true rfl hret⟩
      · rw [parse_lf hne hpair, hlines, hlast]
      · rw [wholeLines, if_neg hpair, hopen, hpieces, append_nil]

theorem ownLines_concat (h : wholeLines text = init ++ [last]) :
    ownLines text = init.map (OwnLine.mk · (Document.parse text).newline.text) ++
      [⟨last, finalNewline text⟩] := by
  rw [ownLines, h, dropLast_concat, getLast?_concat]
  rfl

theorem intercalate_wholeLines (text : Text) :
    (Document.parse text).newline.text.intercalate (wholeLines text) = openEnd text := by
  rw [newline_parse, wholeLines]
  split
  · exact intercalate_splitPair return_ne_newline _
  · exact intercalate_splitOn '\n'

/-- The lines with their ends are the text. -/
theorem flatMap_ownLines (text : Text) : (ownLines text).flatMap (·.text) = text := by
  have hjoin := intercalate_wholeLines text
  have hne : wholeLines text ≠ [] := by
    rw [wholeLines]
    split
    · exact splitPair_ne_nil return_ne_newline _
    · exact splitOn_ne_nil '\n' _
  obtain ⟨init, last, hlines⟩ := (eq_nil_or_concat' (wholeLines text)).resolve_left hne
  rw [hlines, intercalate_concat_flatMap] at hjoin
  rw [ownLines_concat hlines, flatMap_append, flatMap_map, flatMap_singleton]
  show init.flatMap (· ++ (Document.parse text).newline.text) ++ (last ++ finalNewline text) = text
  rw [← append_assoc, hjoin, openEnd_append_finalNewline]

theorem trailingNewline_parse (text : Text) :
    (Document.parse text).trailingNewline ↔ finalNewline text ≠ [] := by
  show decide (text.getLast? = some '\n') = true ↔ _
  rw [decide_eq_true_iff]
  rcases finalNewline_cases text with ⟨hend, hfinal⟩ | ⟨hend, hfinal | ⟨hfinal, -⟩⟩
  · exact iff_of_false hend (not_not.mpr hfinal)
  all_goals exact iff_of_true hend (by simp [hfinal])

/-- What the parser keeps of the end of a text. -/
theorem keepsEnd_iff {stray : Text} (h : Kept text init last stray) :
    KeepsEnd text ↔ stray = [] ∧
      (finalNewline text = [] ∨ finalNewline text = (Document.parse text).newline.text) := by
  rw [KeepsEnd, ← h.stray_iff, newline_parse]
  refine and_congr_right fun _ => ?_
  rcases finalNewline_cases text with ⟨hend, hfinal⟩ | ⟨hend, hfinal | ⟨hfinal, hpair⟩⟩
  · exact iff_of_true (fun _ hnot => absurd hnot hend) (.inl hfinal)
  · by_cases hpair : hasPair '\r' '\n' text
    · simp [hpair, hend, hfinal, Newline.text]
    · simp [hpair, hfinal, Newline.text]
  · simp [hpair, hfinal, Newline.text]

/-! ### The last line -/

section LastLine

variable {newline final last stray : Text} {trailing : Bool} (hnewline : newline ≠ [])
include hnewline

/-- A line that another one follows is written as it was exactly when its end is kept. -/
theorem followed_last_iff (hstray : stray = [] ∨ final = []) :
    OwnLine.followed newline ⟨last, newline⟩ = OwnLine.followed newline ⟨last ++ stray, final⟩ ↔
      stray = [] ∧ (final = [] ∨ final = newline) := by
  rw [followed_newline hnewline, OwnLine.followed, append_assoc, append_cancel_left_eq]
  by_cases hfinal : final = []
  · rw [if_pos hfinal]
    simp [hfinal]
  · have hnil : stray = [] := hstray.resolve_right hfinal
    rw [hnil]
    simp [hfinal, eq_comm]

/-- So is the last line of the file. -/
theorem close_last_iff (htrailing : trailing ↔ final ≠ []) (hstray : stray = [] ∨ final = []) :
    close newline trailing [⟨last, newline⟩] = close newline trailing [OwnLine.mk (last ++ stray) final] ↔
      stray = [] ∧ (final = [] ∨ final = newline) := by
  cases trailing with
  | true => exact followed_last_iff hnewline hstray
  | false =>
    have hfinal : final = [] := by simpa using htrailing
    show last = last ++ stray ↔ _
    simp [hfinal]

/-- **Replacing lines.**  With the last line replaced nothing is lost. -/
theorem close_splice_iff (htrailing : trailing ↔ final ≠ [])
    (hstray : stray = [] ∨ final = []) {first behind : ℕ} {inserted : List Text}
    (hle : first ≤ behind) (hbound : behind ≤ init.length + 1) :
    close newline trailing
        (((init ++ [last]).take first ++ inserted ++ (init ++ [last]).drop behind).map
          (OwnLine.mk · newline)) =
      close newline trailing
        ((init.map (OwnLine.mk · newline) ++ [OwnLine.mk (last ++ stray) final]).take first ++
          inserted.map (OwnLine.mk · newline) ++
          (init.map (OwnLine.mk · newline) ++ [OwnLine.mk (last ++ stray) final]).drop behind) ↔
      (stray = [] ∧ (final = [] ∨ final = newline)) ∨
        (first < init.length + 1 ∧ init.length + 1 ≤ behind) := by
  have hinit : (init.map (OwnLine.mk · newline)).length = init.length := length_map _
  rcases Nat.lt_or_eq_of_le hbound with hbehind | hbehind
  · -- the last line stays behind the replaced ones
    have hfirst : first ≤ init.length := by omega
    have hdrop : behind ≤ init.length := by omega
    rw [take_append_of_le_length hfirst, drop_append_of_le_length hdrop,
      take_append_of_le_length (hinit.symm ▸ hfirst),
      drop_append_of_le_length (hinit.symm ▸ hdrop), ← append_assoc, ← append_assoc,
      map_append, map_singleton, close_append, close_append]
    simp only [map_append, map_take, map_drop, append_cancel_left_eq]
    rw [close_last_iff hnewline htrailing hstray]
    have hnot : ¬ (first < init.length + 1 ∧ init.length + 1 ≤ behind) := by omega
    rw [or_iff_left hnot]
  · have hdrop : (init ++ [last]).drop behind = [] := drop_eq_nil_iff.mpr (by simp [hbehind])
    have hdrop' : (init.map (OwnLine.mk · newline) ++ [OwnLine.mk (last ++ stray) final]).drop behind = [] :=
      drop_eq_nil_iff.mpr (by simp [hbehind])
    rw [hdrop, hdrop', append_nil, append_nil, map_append]
    rcases Nat.lt_or_ge init.length first with hfirst | hfirst
    · -- the last line stays before the new ones
      have htake : (init ++ [last]).take first = init ++ [last] :=
        take_of_length_le (by simp; omega)
      have htake' : (init.map (OwnLine.mk · newline) ++ [OwnLine.mk (last ++ stray) final]).take first =
          init.map (OwnLine.mk · newline) ++ [OwnLine.mk (last ++ stray) final] :=
        take_of_length_le (by simp; omega)
      have hnot : ¬ (first < init.length + 1 ∧ init.length + 1 ≤ behind) := by omega
      rw [htake, htake', or_iff_left hnot, map_append, map_singleton, append_assoc,
        append_assoc, singleton_append, singleton_append, close_append, close_append,
        append_cancel_left_eq]
      cases inserted with
      | nil => exact close_last_iff hnewline htrailing hstray
      | cons =>
        show OwnLine.followed _ _ ++ _ = OwnLine.followed _ _ ++ _ ↔ _
        rw [append_cancel_right_eq, followed_last_iff hnewline hstray]
    · -- the last line is replaced
      rw [take_append_of_le_length hfirst, take_append_of_le_length (hinit.symm ▸ hfirst), map_take]
      exact iff_of_true rfl (.inr ⟨by omega, hbehind.ge⟩)

end LastLine

/-! ### Mutations -/

theorem target_bounds {doc : Document} {args : HashlineArgs} {first last : ℕ}
    (h : target doc args = some (first, last)) :
    first ≤ last ∧ last ≤ doc.lines.length ∧ doc.lines ≠ [] := by
  have hrange : ∀ {anchor : Text}, (resolveAnchorOrRange doc anchor).toOption.map
      (fun range => (range.1, range.2 + 1)) = some (first, last) →
      first ≤ last ∧ last ≤ doc.lines.length ∧ doc.lines ≠ [] := fun {anchor} hmap => by
    rcases hresult : resolveAnchorOrRange doc anchor with error | ⟨first', last'⟩
    · rw [hresult] at hmap
      cases hmap
    · rw [hresult] at hmap
      cases hmap
      obtain ⟨-, hlast, hle⟩ := resolveAnchorOrRange_ok hresult
      exact ⟨hle.trans (Nat.le_succ _), hlast.lt, length_pos_iff.mp (Nat.zero_lt_of_lt hlast.lt)⟩
  unfold target at h
  rcases haction : args.action with - | - | - | -
  · simp [haction] at h
  · simp only [haction] at h
    obtain ⟨anchor, -, hmap⟩ := Option.bind_eq_some_iff.mp h
    exact hrange hmap
  · simp only [haction] at h
    obtain ⟨anchor, -, hmap⟩ := Option.bind_eq_some_iff.mp h
    rcases hresult : resolveStrict doc anchor with error | resolved
    · rw [hresult] at hmap
      cases hmap
    · rw [hresult] at hmap
      cases hmap
      have hlt := resolveStrict_lt hresult
      refine ⟨le_rfl, ?_, length_pos_iff.mp (Nat.zero_lt_of_lt hlt)⟩
      split
      · exact hlt.le
      · exact hlt
  · simp only [haction] at h
    obtain ⟨anchor, -, hmap⟩ := Option.bind_eq_some_iff.mp h
    exact hrange hmap

/-- The file in which lines are replaced and every other line stands as it was. -/
def replaceOwnLines (text : Text) (first last : ℕ) (inserted : List Text) : Text :=
  let doc := Document.parse text
  close doc.newline.text doc.trailingNewline
    ((ownLines text).take first ++ inserted.map (⟨·, doc.newline.text⟩) ++
      (ownLines text).drop last)

/-- **Which mutations leave the other lines as they were.**  The lines with their ends make up the
text; and the file that is written has every line outside the range with its own end exactly when
the end of the text is one that a document can hold, or the last line is in the range. -/
theorem mutation_frame_iff {text : Text} {args : HashlineArgs} {content : Option Text}
    {changed : Changed} (h : applyMutation (.parse text) args content = .ok changed) :
    (ownLines text).flatMap (·.text) = text ∧
      ∃ first last, target (.parse text) args = some (first, last) ∧
        (changed.doc.render = replaceOwnLines text first last (putIn args content) ↔
          KeepsEnd text ∨ (first < (ownLines text).length ∧ (ownLines text).length ≤ last)) := by
  refine ⟨flatMap_ownLines text, ?_⟩
  obtain ⟨first, last, htarget, hdoc⟩ := applyMutation_ok h
  refine ⟨first, last, htarget, ?_⟩
  obtain ⟨hle, hbound, hlines⟩ := target_bounds htarget
  have hne : body text ≠ [] := fun hnil => hlines (parse_nil hnil)
  obtain ⟨init, line, stray, hkept⟩ := exists_kept hne
  have hown := ownLines_concat hkept.whole
  have hcount : (ownLines text).length = init.length + 1 := by simp [hown]
  have hstray : stray = [] ∨ finalNewline text = [] := by
    rcases finalNewline_cases text with ⟨-, hfinal⟩ | ⟨hend, -⟩
    · exact .inr hfinal
    · exact .inl (hkept.stray_iff.mpr (by rw [hend]; decide))
  rw [keepsEnd_iff hkept, hcount, replaceOwnLines, hown, hdoc, render_eq_close]
  show close (Document.parse text).newline.text _ (((Document.parse text).lines.take first ++ _ ++
    (Document.parse text).lines.drop last).map _) = _ ↔ _
  rw [hkept.lines]
  rw [hkept.lines, length_append] at hbound
  exact close_splice_iff (Newline.text_ne_nil _) (trailingNewline_parse text) hstray hle hbound

section Example

/-- A first line with a Windows line end and a second one with a Unix line end. -/
def mixedEnds : Text := ['a', '\r', '\n', 'b', '\n']

def editFirst (text : Text) : HashlineArgs :=
  ⟨.edit, some ((Document.parse text).anchorText 0), some ['c'], false, none⟩

/-- The line end of the second line changes with an edit of the first. -/
theorem second_end_changed :
    applyMutation (.parse mixedEnds) (editFirst mixedEnds) (some ['c']) =
        .ok ⟨⟨[['c'], ['b']], .crlf, true⟩, 0, 0, "Edited".toList⟩ ∧
      (Document.mk [['c'], ['b']] .crlf true).render = ['c', '\r', '\n', 'b', '\r', '\n'] ∧
      ownLines mixedEnds = [⟨['a'], ['\r', '\n']⟩, ⟨['b'], ['\n']⟩] ∧
      replaceOwnLines mixedEnds 0 1 [['c']] = ['c', '\r', '\n', 'b', '\n'] := by
  refine ⟨by decide +kernel, by decide, by decide, by decide⟩

/-- With the same line end behind both lines the second one stays. -/
theorem second_end_kept :
    (ownLines ['a', '\n', 'b', '\n']).flatMap (·.text) = ['a', '\n', 'b', '\n'] ∧
      ∃ first last,
        target (.parse ['a', '\n', 'b', '\n']) (editFirst ['a', '\n', 'b', '\n']) =
          some (first, last) ∧
        ((Document.mk [['c'], ['b']] .lf true).render =
            replaceOwnLines ['a', '\n', 'b', '\n'] first last
              (putIn (editFirst ['a', '\n', 'b', '\n']) (some ['c'])) ↔
          KeepsEnd ['a', '\n', 'b', '\n'] ∨
            (first < (ownLines ['a', '\n', 'b', '\n']).length ∧
              (ownLines ['a', '\n', 'b', '\n']).length ≤ last)) := by
  have hedited : applyMutation (.parse ['a', '\n', 'b', '\n'])
      (editFirst ['a', '\n', 'b', '\n']) (some ['c']) =
        .ok ⟨⟨[['c'], ['b']], .lf, true⟩, 0, 0, "Edited".toList⟩ := by decide +kernel
  exact mutation_frame_iff hedited

end Example

end Hashline

end CodexPlus
