/-
CodexPlus/HashlineRoundTrip.lean

What a change of a file by fuzz_view_edit leaves for the next call.

The next call parses the file that was written.  It finds the lines of the changed
document exactly when these lines meet a condition (`Rereads`) on their ends, which
depends on the line end of the file and on whether it has one behind its last line.
When it does, the anchor shown for a line names that line again.
-/
import CodexPlus.Hashline

namespace CodexPlus

open List Hashline.Document

namespace Hashline

open EncodedLines FileRead PairSplit

/-! ### Ends of texts -/

/-- There is a last symbol, and it belongs to no line end. -/
def PlainEnd (text : Text) : Prop :=
  text ≠ [] ∧ text.getLast? ≠ some '\r' ∧ text.getLast? ≠ some '\n'

instance (text : Text) : Decidable (PlainEnd text) := inferInstanceAs (Decidable (_ ∧ _ ∧ _))

theorem body_isPrefix (text : Text) : body text <+: text :=
  (popLast_isPrefix _ _).trans (popLast_isPrefix _ _)

variable {text : Text}

theorem PlainEnd.body_eq (h : PlainEnd text) : body text = text := by
  rw [body, popLast_of_ne h.2.2, popLast_of_ne h.2.1]

@[simp] theorem body_lf (text : Text) : body (text ++ ['\n']) = popLast '\r' text := by
  rw [body, popLast_concat]

@[simp] theorem body_crlf (text : Text) : body (text ++ ['\r', '\n']) = text := by
  have hsplit : text ++ ['\r', '\n'] = (text ++ ['\r']) ++ ['\n'] := by simp
  rw [hsplit, body_lf, popLast_concat]

/-- Nothing is taken off a text with a plain end only. -/
theorem plainEnd_of_length_le (hne : body text ≠ [])
    (h : text.length ≤ (body text).length) : PlainEnd text := by
  have heq : body text = text := (body_isPrefix text).eq_of_length_le h
  refine ⟨fun hnil => hne (heq.trans hnil), fun hr => ?_, fun hn => ?_⟩
  · obtain ⟨init, rfl⟩ := getLast?_eq_some_iff.mp hr
    have hbody : body (init ++ ['\r']) = init := by
      have hpop : popLast '\n' (init ++ ['\r']) = init ++ ['\r'] := popLast_of_ne (by simp)
      rw [body, hpop, popLast_concat]
    rw [hbody] at heq
    simpa using congrArg List.length heq
  · obtain ⟨init, rfl⟩ := getLast?_eq_some_iff.mp hn
    have hle := (popLast_isPrefix '\r' init).length_le
    rw [body_lf, length_append] at h
    simp only [length_singleton] at h
    omega

variable (newline : Newline)

theorem Newline.text_ne_nil : newline.text ≠ [] := by
  cases newline <;> exact cons_ne_nil _ _

theorem Newline.getLast?_text : newline.text.getLast? = some '\n' := by
  cases newline <;> rfl

theorem plainEnd_join (init : List Text) (last : Text) :
    PlainEnd (newline.text.intercalate (init ++ [last])) ↔ PlainEnd last := by
  by_cases hlast : last = []
  · subst hlast
    by_cases hinit : init = []
    · rw [hinit, nil_append, intercalate_singleton]
    · -- the text ends with a line end
      refine ⟨fun h => absurd ?_ h.2.2, fun h => absurd rfl h.1⟩
      rw [getLast?_intercalate_nil newline.text_ne_nil hinit, newline.getLast?_text]
  · have hend := getLast?_intercalate newline.text init hlast
    have hne : newline.text.intercalate (init ++ [last]) ≠ [] := by
      rw [← getLast?_isSome, hend, getLast?_isSome]
      exact hlast
    unfold PlainEnd
    rw [hend]
    exact ⟨fun h => ⟨hlast, h.2⟩, fun h => ⟨hne, h.2⟩⟩

/-! ### The lines of a document -/

/-- No line holds what the document separates its lines with. -/
def Document.Separated (doc : Document) : Prop :=
  match doc.newline with
  | .lf => ∀ line ∈ doc.lines, '\n' ∉ line
  | .crlf => ∀ line ∈ doc.lines, ¬ hasPair '\r' '\n' line

variable {line : Text}

theorem not_mem_of_mem_lfLines {body : Text} (h : line ∈ lfLines body) : '\n' ∉ line := by
  obtain ⟨piece, hpiece, rfl⟩ := mem_map.mp h
  exact fun hmem => LineLog.not_mem_of_mem_splitOn '\n' body piece hpiece (mem_of_mem_popLast hmem)

theorem not_mem_of_mem_splitContent {content : Text} (h : line ∈ splitContent content) :
    '\n' ∉ line := by
  by_cases hnil : popLast '\n' content = []
  · simp [splitContent, hnil] at h
  · have hlines : line ∈ lfLines (popLast '\n' content) := by simpa [splitContent, hnil] using h
    exact not_mem_of_mem_lfLines hlines

/-- `parse`, by what the text holds. -/
theorem parse_nil (h : body text = []) : (parse text).lines = [] := by
  simp [parse, h]

theorem parse_crlf (hne : body text ≠ []) (h : hasPair '\r' '\n' text) :
    (parse text).lines = splitPair '\r' '\n' (body text) := by
  simp [parse, hne, h]

theorem parse_lf (hne : body text ≠ []) (h : ¬ hasPair '\r' '\n' text) :
    (parse text).lines = lfLines (body text) := by
  simp [parse, hne, h]

theorem return_ne_newline : '\r' ≠ '\n' := by decide

theorem separated_parse (text : Text) : (parse text).Separated := by
  by_cases hne : body text = []
  · unfold Document.Separated
    rw [parse_nil hne]
    split <;> exact fun _ h => absurd h not_mem_nil
  · by_cases h : hasPair '\r' '\n' text
    · have hnewline : (parse text).newline = .crlf := by simp [parse, h]
      unfold Document.Separated
      rw [hnewline, parse_crlf hne h]
      exact not_hasPair_of_mem_splitPair return_ne_newline _
    · have hnewline : (parse text).newline = .lf := by simp [parse, h]
      unfold Document.Separated
      rw [hnewline, parse_lf hne h]
      exact fun _ => not_mem_of_mem_lfLines

variable {doc : Document}

theorem Document.Separated.splice (h : doc.Separated) (first last : ℕ)
    {inserted : List Text} (hinserted : ∀ line ∈ inserted, '\n' ∉ line) :
    (doc.splice first last inserted).Separated := by
  have hmem : ∀ line ∈ (doc.splice first last inserted).lines, line ∈ doc.lines ∨ '\n' ∉ line := by
    intro line hline
    rcases mem_append.mp hline with hline | hline
    · rcases mem_append.mp hline with hline | hline
      · exact .inl (mem_of_mem_take hline)
      · exact .inr (hinserted line hline)
    · exact .inl (mem_of_mem_drop hline)
  unfold Document.Separated at h ⊢
  show match doc.newline with | .lf => _ | .crlf => _
  rcases hnewline : doc.newline with - | -
  · rw [hnewline] at h
    exact fun line hline => (hmem line hline).elim (h line) id
  · rw [hnewline] at h
    exact fun line hline => (hmem line hline).elim (h line) not_hasPair_of_not_mem

/-! ### Lines that are read again -/

/-- **The lines that are read again as they were written.**  Without a line end behind them, the
last line has to end with a plain symbol. -/
def Rereads (trailingNewline : Bool) (lines : List Text) : Prop :=
  lines = [] ∨
    ((newline = .lf → ∀ line ∈ lines, line.getLast? ≠ some '\r') ∧
      if trailingNewline then lines ≠ [[]]
      else PlainEnd (lines.getLastD []) ∧
        (newline = .crlf → ∀ line ∈ lines, lines.length = 1 → '\n' ∉ line))

instance (newline : Newline) (trailingNewline : Bool) (lines : List Text) :
    Decidable (Rereads newline trailingNewline lines) :=
  inferInstanceAs (Decidable (_ ∨ _))

/-- What the lines found in a text with Windows line ends add up to. -/
theorem length_body_crlf {rest : List Text}
    (h : hasPair '\r' '\n' text) (hlines : (parse text).lines = line :: rest) :
    (body text).length = total (line :: rest) + 2 * rest.length := by
  have hne : body text ≠ [] := fun hnil => by rw [parse_nil hnil] at hlines; cases hlines
  rw [parse_crlf hne h] at hlines
  have hjoin := intercalate_splitPair return_ne_newline (body text)
  rw [hlines] at hjoin
  rw [← hjoin, length_intercalate]
  rfl

theorem total_map_popLast_le (a : Char) (lines : List Text) :
    total (lines.map (popLast a)) ≤ total lines := by
  induction lines with
  | nil => exact le_rfl
  | cons line _ ih =>
    have hline := (popLast_isPrefix a line).length_le
    simp only [total, map_cons, sum_cons] at ih ⊢
    omega

/-- With Unix line ends something may be taken off every line. -/
theorem length_body_lf {rest : List Text}
    (h : ¬ hasPair '\r' '\n' text) (hlines : (parse text).lines = line :: rest) :
    total (line :: rest) + rest.length ≤ (body text).length := by
  have hne : body text ≠ [] := fun hnil => by rw [parse_nil hnil] at hlines; cases hlines
  rw [parse_lf hne h, lfLines] at hlines
  have hjoin : ['\n'].intercalate ((body text).splitOn '\n') = body text :=
    intercalate_splitOn '\n'
  rcases hsplit : (body text).splitOn '\n' with - | ⟨piece, pieces⟩
  · rw [hsplit] at hlines
    cases hlines
  rw [hsplit] at hjoin hlines
  have hcount : pieces.length = rest.length := by
    have := congrArg List.length hlines
    simpa using this
  have htotal := total_map_popLast_le '\r' (piece :: pieces)
  rw [hlines] at htotal
  rw [← hjoin, length_intercalate, length_singleton]
  omega

section Reread

variable {lines : List Text}

theorem lfLines_join (hsep : ∀ line ∈ lines, '\n' ∉ line) (hne : lines ≠ [])
    (hend : ∀ line ∈ lines, line.getLast? ≠ some '\r') :
    lfLines (['\n'].intercalate lines) = lines := by
  have hsplit : (['\n'].intercalate lines).splitOn '\n' = lines :=
    splitOn_intercalate '\n' hsep hne
  rw [lfLines, hsplit]
  exact (map_congr_left fun line hline => popLast_of_ne (hend line hline)).trans
    (map_id lines)

/-- A joined text is empty when there is one empty line. -/
theorem join_eq_nil (newline : Newline) (hne : lines ≠ []) :
    newline.text.intercalate lines = [] ↔ lines = [[]] := by
  refine ⟨fun h => ?_, fun h => by rw [h, intercalate_singleton]⟩
  rcases eq_nil_or_concat lines with hnil | ⟨init, last, rfl⟩
  · exact absurd hnil hne
  rw [concat_eq_append] at h ⊢
  by_cases hinit : init = []
  · rw [hinit, nil_append, intercalate_singleton] at h
    rw [hinit, h, nil_append]
  · rw [intercalate_concat _ _ hinit] at h
    exact absurd (append_eq_nil_iff.mp (append_eq_nil_iff.mp h).1).2
      newline.text_ne_nil

theorem join_lf_getLast? (hne : lines ≠ []) (hend : ∀ line ∈ lines, line.getLast? ≠ some '\r') :
    (['\n'].intercalate lines).getLast? ≠ some '\r' := by
  rcases eq_nil_or_concat lines with hnil | ⟨init, last, rfl⟩
  · exact absurd hnil hne
  rw [concat_eq_append] at hend ⊢
  by_cases hlast : last = []
  · by_cases hinit : init = []
    · simp [hinit, hlast]
    · rw [hlast, getLast?_intercalate_nil (by simp) hinit]
      decide
  · rw [getLast?_intercalate _ _ hlast]
    exact hend last (by simp)

/-- Unix line ends, and one behind the last line. -/
theorem reread_lf_trailing (hsep : ∀ line ∈ lines, '\n' ∉ line) (hne : lines ≠ []) :
    (parse (['\n'].intercalate lines ++ ['\n'])).lines = lines ↔
      (∀ line ∈ lines, line.getLast? ≠ some '\r') ∧ lines ≠ [[]] := by
  constructor
  · intro h
    refine ⟨fun found hfound hreturn => ?_, ?_⟩
    · -- the text would be taken for one with Windows line ends
      have hpair : hasPair '\r' '\n' (['\n'].intercalate lines ++ ['\n']) :=
        hasPair_intercalate_of_mem hfound hreturn
      obtain ⟨line, rest, rfl⟩ := exists_cons_of_ne_nil hne
      have hlength := length_body_crlf hpair h
      have hjoin := length_intercalate ['\n'] line rest
      have hpop := (popLast_isPrefix '\r' (['\n'].intercalate (line :: rest))).length_le
      rw [body_lf] at hlength
      rw [length_singleton] at hjoin
      obtain rfl : rest = [] := eq_nil_of_length_eq_zero (by omega)
      rw [mem_singleton.mp hfound] at hreturn
      obtain ⟨init, rfl⟩ := getLast?_eq_some_iff.mp hreturn
      simp [total] at hlength
    · rintro rfl
      cases h
  · rintro ⟨hend, hone⟩
    have hlast := join_lf_getLast? hne hend
    have hpair : ¬ hasPair '\r' '\n' (['\n'].intercalate lines ++ ['\n']) := by
      rw [hasPair_append]
      rintro (h | ⟨h, -⟩ | h)
      · exact not_hasPair_intercalate return_ne_newline hsep hend h
      · exact hlast h
      · cases h
    have hbody : body (['\n'].intercalate lines ++ ['\n']) = ['\n'].intercalate lines := by
      rw [body_lf, popLast_of_ne hlast]
    have hfull : ['\n'].intercalate lines ≠ [] := fun h => hone ((join_eq_nil .lf hne).mp h)
    rw [parse_lf (by rwa [hbody]) hpair, hbody, lfLines_join hsep hne hend]

variable {init : List Text} {last : Text}

/-- Unix line ends, and none behind the last line. -/
theorem reread_lf_open (hsep : ∀ line ∈ init ++ [last], '\n' ∉ line) :
    (parse (['\n'].intercalate (init ++ [last]))).lines = init ++ [last] ↔
      (∀ line ∈ init ++ [last], line.getLast? ≠ some '\r') ∧ PlainEnd last := by
  constructor
  · intro h
    have hbody : body (['\n'].intercalate (init ++ [last])) ≠ [] := fun hnil => by
      rw [parse_nil hnil] at h
      exact absurd h.symm (by simp)
    obtain ⟨line, rest, hlines⟩ := exists_cons_of_ne_nil (show init ++ [last] ≠ [] by simp)
    have hle := (body_isPrefix (['\n'].intercalate (init ++ [last]))).length_le
    have hjoin := length_intercalate ['\n'] line rest
    rw [length_singleton, ← hlines] at hjoin
    have hpair : ¬ hasPair '\r' '\n' (['\n'].intercalate (init ++ [last])) := by
      intro hpair
      have hlength := length_body_crlf hpair (h.trans hlines)
      rw [← hlines] at hlength
      obtain rfl : rest = [] := eq_nil_of_length_eq_zero (by omega)
      rw [hlines, intercalate_singleton] at hpair
      exact not_hasPair_of_not_mem (hsep line (by simp [hlines])) hpair
    have hlength := length_body_lf hpair (h.trans hlines)
    rw [← hlines] at hlength
    have hkept : (['\n'].intercalate (init ++ [last])).length ≤
        (body (['\n'].intercalate (init ++ [last]))).length := by omega
    have hplain : PlainEnd last :=
      (plainEnd_join .lf init last).mp (plainEnd_of_length_le hbody hkept)
    refine ⟨fun found hfound hreturn => ?_, hplain⟩
    rcases mem_append.mp hfound with hfound | hfound
    · -- before the last line, the line end makes a pair
      have hinit : init ≠ [] := ne_nil_of_mem hfound
      rw [intercalate_concat _ _ hinit, hasPair_append] at hpair
      exact hpair (.inl (hasPair_intercalate_of_mem hfound hreturn))
    · rw [mem_singleton.mp hfound] at hreturn
      exact hplain.2.1 hreturn
  · rintro ⟨hend, hplain⟩
    have hfull : PlainEnd (['\n'].intercalate (init ++ [last])) :=
      (plainEnd_join .lf init last).mpr hplain
    have hpair := not_hasPair_intercalate return_ne_newline hsep hend
    rw [parse_lf (by rw [hfull.body_eq]; exact hfull.1) hpair, hfull.body_eq,
      lfLines_join hsep (by simp) hend]

/-- Windows line ends, and one behind the last line. -/
theorem reread_crlf_trailing (hsep : ∀ line ∈ lines, ¬ hasPair '\r' '\n' line) (hne : lines ≠ []) :
    (parse (['\r', '\n'].intercalate lines ++ ['\r', '\n'])).lines = lines ↔
      lines ≠ [[]] := by
  constructor
  · rintro h rfl
    cases h
  · intro hone
    have hpair : hasPair '\r' '\n' (['\r', '\n'].intercalate lines ++ ['\r', '\n']) :=
      hasPair_append.mpr (.inr (.inr rfl))
    have hfull : ['\r', '\n'].intercalate lines ≠ [] :=
      fun h => hone ((join_eq_nil .crlf hne).mp h)
    rw [parse_crlf (by rwa [body_crlf]) hpair, body_crlf,
      splitPair_intercalate return_ne_newline hne hsep]

/-- Windows line ends, and none behind the last line. -/
theorem reread_crlf_open (hsep : ∀ line ∈ init ++ [last], ¬ hasPair '\r' '\n' line) :
    (parse (['\r', '\n'].intercalate (init ++ [last]))).lines = init ++ [last] ↔
      PlainEnd last ∧ (init = [] → '\n' ∉ last) := by
  constructor
  · intro h
    have hbody : body (['\r', '\n'].intercalate (init ++ [last])) ≠ [] := fun hnil => by
      rw [parse_nil hnil] at h
      exact absurd h.symm (by simp)
    have hplain : (['\r', '\n'].intercalate (init ++ [last])).length ≤
        (body (['\r', '\n'].intercalate (init ++ [last]))).length → PlainEnd last := fun hle =>
      (plainEnd_join .crlf init last).mp (plainEnd_of_length_le hbody hle)
    by_cases hinit : init = []
    · -- a single line, which has no line end to tell the style by
      subst hinit
      rw [nil_append, intercalate_singleton] at h hbody hplain
      have hpair : ¬ hasPair '\r' '\n' last := hsep last (by simp)
      have hlength := length_body_lf hpair h
      refine ⟨hplain (by simpa [total] using hlength), fun _ hmem => ?_⟩
      rw [parse_lf hbody hpair] at h
      exact not_mem_of_mem_lfLines (h ▸ mem_singleton_self last) hmem
    · obtain ⟨line, rest, hlines⟩ := exists_cons_of_ne_nil (show init ++ [last] ≠ [] by simp)
      have hpair : hasPair '\r' '\n' (['\r', '\n'].intercalate (init ++ [last])) := by
        rw [intercalate_concat _ _ hinit, hasPair_append, hasPair_append]
        exact .inl (.inr (.inr rfl))
      have hlength := length_body_crlf hpair (h.trans hlines)
      have hjoin := length_intercalate ['\r', '\n'] line rest
      rw [← hlines] at hlength hjoin
      refine ⟨hplain (le_of_eq ?_), fun hnil => absurd hnil hinit⟩
      rw [hlength, hjoin]
      rfl
  · rintro ⟨hplain, hsingle⟩
    have hfull : PlainEnd (['\r', '\n'].intercalate (init ++ [last])) :=
      (plainEnd_join .crlf init last).mpr hplain
    have hbody : body (['\r', '\n'].intercalate (init ++ [last])) ≠ [] := by
      rw [hfull.body_eq]
      exact hfull.1
    by_cases hinit : init = []
    · subst hinit
      rw [nil_append, intercalate_singleton] at hbody hfull ⊢
      have hmem := hsingle rfl
      rw [parse_lf hbody (not_hasPair_of_not_mem hmem), hfull.body_eq, lfLines,
        splitOn_eq_singleton hmem, map_singleton, popLast_of_ne hplain.2.1]
    · have hpair : hasPair '\r' '\n' (['\r', '\n'].intercalate (init ++ [last])) := by
        rw [intercalate_concat _ _ hinit, hasPair_append, hasPair_append]
        exact .inl (.inr (.inr rfl))
      rw [parse_crlf hbody hpair, hfull.body_eq,
        splitPair_intercalate return_ne_newline (by simp) hsep]

end Reread

/-- **The next call finds the lines of a document exactly when `Rereads` holds of them.** -/
theorem parse_render_iff (h : doc.Separated) :
    (parse doc.render).lines = doc.lines ↔
      Rereads doc.newline doc.trailingNewline doc.lines := by
  obtain ⟨lines, newline, trailing⟩ := doc
  rcases eq_nil_or_concat lines with rfl | ⟨init, last, rfl⟩
  · -- nothing but a line end, if there is one
    refine ⟨fun _ => .inl rfl, fun _ => ?_⟩
    cases newline <;> cases trailing <;> rfl
  rw [concat_eq_append] at h ⊢
  have hne : init ++ [last] ≠ [] := by simp
  have hlast : (init ++ [last]).getLastD [] = last := by simp
  cases newline <;> cases trailing
  · refine (reread_lf_open h).trans ?_
    simp [Rereads]
  · refine (reread_lf_trailing h hne).trans ?_
    simp [Rereads]
  · refine (reread_crlf_open h).trans ?_
    simp only [Rereads, hne, hlast, false_or, reduceCtorEq, false_imp_iff, true_and, forall_const,
      Bool.false_eq_true, if_false]
    refine and_congr_right fun _ => ⟨?_, ?_⟩
    · intro hsingle line hline hone
      obtain rfl : init = [] := eq_nil_of_length_eq_zero (by simpa using hone)
      rw [mem_singleton.mp hline]
      exact hsingle rfl
    · rintro hsingle rfl
      exact hsingle last (by simp) rfl
  · refine (reread_crlf_trailing h hne).trans ?_
    simp [Rereads]

/-! ### Anchors that are read back -/

theorem toNat_digitChar : ∀ d : Fin 16, isHexDigit (Nat.digitChar d) ∧
    hexValue (Nat.digitChar d) = d ∧ 48 ≤ (Nat.digitChar d).toNat ∧ (Nat.digitChar d).toNat ≤ 102 := by
  decide

@[simp] theorem length_hexDigits (width n : ℕ) : (hexDigits width n).length = width := by
  induction width generalizing n with
  | zero => rfl
  | succ width ih => rw [hexDigits, length_append, ih, length_singleton]

variable {c : Char} {n : ℕ}

theorem exists_of_mem_hexDigits {width : ℕ} (h : c ∈ hexDigits width n) :
    ∃ d : Fin 16, c = Nat.digitChar d := by
  induction width generalizing n with
  | zero => cases h
  | succ _ ih =>
    rcases mem_append.mp h with h | h
    · exact ih h
    · exact ⟨⟨n % 16, Nat.mod_lt _ (by decide)⟩, mem_singleton.mp h⟩

theorem fromHex_hexDigits (width n : ℕ) : fromHex (hexDigits width n) = n % 16 ^ width := by
  induction width generalizing n with
  | zero => exact (Nat.mod_one n).symm
  | succ width ih =>
    have hdigit : hexValue (Nat.digitChar (n % 16)) = n % 16 :=
      (toNat_digitChar ⟨n % 16, Nat.mod_lt _ (by decide)⟩).2.1
    rw [hexDigits, fromHex, foldl_append]
    show 16 * fromHex (hexDigits width (n / 16)) + hexValue (Nat.digitChar (n % 16)) = _
    rw [ih, Nat.pow_succ', Nat.mod_mul]
    omega

theorem parseHash_formatShortHash (line anchor : Text) :
    parseHash (formatShortHash (fullHash line)) anchor = .ok (fullHash line) := by
  rw [fullHash, formatShortHash, parseHash]
  generalize (xxh32 (utf8 (trimEnd line)) 0).toUInt16 = hash
  have hall : (hexDigits 4 hash.toNat).all isHexDigit := by
    refine all_eq_true.mpr fun c hc => ?_
    obtain ⟨d, rfl⟩ := exists_of_mem_hexDigits hc
    exact (toNat_digitChar d).1
  have hvalue : UInt16.ofNat (fromHex (hexDigits 4 hash.toNat)) = hash := by
    have hlt : hash.toNat < 16 ^ 4 := hash.toNat_lt
    rw [fromHex_hexDigits, Nat.mod_eq_of_lt hlt, UInt16.ofNat_toNat]
  rw [hall, hvalue]
  simp

theorem isDigit_bounds (h : c.isDigit) : 48 ≤ c.toNat ∧ c.toNat ≤ 57 := by
  simpa [Char.isDigit, UInt32.le_iff_toNat_le] using h

theorem isDigit_of_mem_decimal (h : c ∈ decimal n) : c.isDigit :=
  Nat.isDigit_of_mem_toDigits (by decide) (by decide) h

theorem parseLine_decimal (n : ℕ) : parseLine (decimal (n + 1)) = some (n + 1) := by
  have hne : decimal (n + 1) ≠ [] := Nat.toDigits_ne_nil
  have hdigits : (decimal (n + 1)).all Char.isDigit :=
    all_eq_true.mpr fun c hc => isDigit_of_mem_decimal hc
  have hplus : ∀ rest, decimal (n + 1) ≠ '+' :: rest := fun rest heq => by
    rw [heq] at hdigits
    simp at hdigits
  have hvalue : Nat.ofDigitChars 10 (decimal (n + 1)) 0 = n + 1 :=
    Nat.ofDigitChars_toDigits (by decide) (by decide)
  have hparse : parseUsize (decimal (n + 1)) = some (n + 1) := by
    unfold parseUsize
    split
    · next rest heq => exact absurd heq (hplus rest)
    · simp [hvalue, hdigits]
      simp [hne]
  rw [parseLine, hparse]
  rfl

variable {index : ℕ}

theorem mem_anchorText_bounds (h : c ∈ doc.anchorText index) : 48 ≤ c.toNat ∧ c.toNat ≤ 102 := by
  rcases mem_append.mp h with h | h
  · have hc := isDigit_bounds (isDigit_of_mem_decimal h)
    omega
  · rcases mem_cons.mp h with rfl | h
    · decide
    · rw [hashAt, fullHash] at h
      obtain ⟨d, rfl⟩ := exists_of_mem_hexDigits h
      exact (toNat_digitChar d).2.2

theorem trim_of_no_whitespace (h : ∀ c ∈ text, isWhitespace c = false) : trim text = text := by
  have hstart : trimStart text = text := by
    cases text with
    | nil => rfl
    | cons c => simp [trimStart, h c (by simp)]
  rw [trim, hstart]
  refine rdropWhile_eq_self_iff.mpr fun hne => ?_
  simp [h _ (getLast_mem hne)]

theorem splitOnce_append {sep : Char} {left : Text} (h : sep ∉ left) (right : Text) :
    splitOnce sep (left ++ sep :: right) = some (left, right) := by
  induction left with
  | nil => simp [splitOnce]
  | cons _ _ ih =>
    rw [mem_cons, not_or] at h
    rw [cons_append, splitOnce, if_neg (Ne.symm h.1), ih h.2]
    rfl

theorem splitRange_of_not_mem (h : '.' ∉ text) : splitRange text = none := by
  induction text with
  | nil => rfl
  | cons c rest ih =>
    rw [mem_cons, not_or] at h
    cases rest with
    | nil => rfl
    | cons =>
      rw [splitRange, if_neg (fun hdots => h.1 hdots.1.symm), ih h.2]
      rfl

variable (doc)

theorem trim_anchorText (index : ℕ) : trim (doc.anchorText index) = doc.anchorText index := by
  refine trim_of_no_whitespace fun c hc => ?_
  have hbounds := mem_anchorText_bounds hc
  simp only [isWhitespace, Bool.or_eq_false_iff, Bool.and_eq_false_iff, decide_eq_false_iff_not]
  omega

theorem dot_not_mem_anchorText (index : ℕ) : '.' ∉ doc.anchorText index :=
  fun hmem => absurd (mem_anchorText_bounds hmem).1 (by decide)

theorem parseAnchor_anchorText (index : ℕ) (allowBareLine : Bool) :
    parseAnchor (doc.anchorText index) allowBareLine =
      .ok (.lineHash (index + 1) (doc.hashAt index)) := by
  have hempty : (doc.anchorText index).isEmpty = false := by simp [anchorText]
  have hpair : hasPair '.' '.' (doc.anchorText index) = false :=
    eq_false_of_ne_true (not_hasPair_of_not_mem (dot_not_mem_anchorText doc index))
  have hcolon : ':' ∉ decimal (index + 1) := fun hmem =>
    absurd (isDigit_of_mem_decimal hmem) (by decide)
  have hsplit : splitOnce ':' (doc.anchorText index) =
      some (decimal (index + 1), formatShortHash (doc.hashAt index)) := splitOnce_append hcolon _
  simp only [parseAnchor, trim_anchorText, hempty, hpair, Bool.or_self, Bool.false_eq_true,
    if_false, hsplit, parseLine_decimal]
  rw [hashAt, parseHash_formatShortHash]
  rfl

/-- A text with something else than digits is no line number. -/
theorem parseLine_of_mem (hmem : c ∈ text) (hplus : c ≠ '+')
    (hdigit : ¬ c.isDigit) : parseLine text = none := by
  have hnone : ∀ digits : Text, c ∈ digits →
      (digits.isEmpty || !digits.all Char.isDigit) = true := fun digits hc => by
    rw [Bool.or_eq_true, Bool.not_eq_true', all_eq_false]
    exact .inr ⟨c, hc, hdigit⟩
  have hparse : parseUsize text = none := by
    unfold parseUsize
    split
    · next rest =>
      exact if_pos (hnone rest ((mem_cons.mp hmem).resolve_left hplus))
    · exact if_pos (hnone text hmem)
  rw [parseLine, hparse]
  rfl

/-- A write at the anchor goes to the line, alone or as a range. -/
def Document.ResolvesTo (anchor : Text) (index : ℕ) : Prop :=
  resolveStrict doc anchor = .ok ⟨index, doc.hashAt index⟩ ∧
    resolveAnchorOrRange doc anchor = .ok (index, index)

variable {next : Document} {doc}

theorem resolveStrict_anchorText (h : next.lines = doc.lines) (hindex : index < doc.lines.length) :
    resolveStrict next (doc.anchorText index) = .ok ⟨index, next.hashAt index⟩ := by
  have hhash : next.hashAt index = doc.hashAt index := by
    rw [hashAt, lineAt, h]
    rfl
  have hmatch : (doc.hashAt index).isMatch (doc.hashAt index) := decide_eq_true rfl
  have hin : index < next.lines.length := h ▸ hindex
  rw [resolveStrict, parseAnchor_anchorText]
  show resolveAnchor next (.lineHash (index + 1) (doc.hashAt index)) .strict = _
  simp [resolveAnchor, hhash, hmatch, hin]

theorem resolvesTo_anchorText (h : next.lines = doc.lines)
    (hindex : index < doc.lines.length) : next.ResolvesTo (doc.anchorText index) index := by
  have hstrict := resolveStrict_anchorText h hindex
  refine ⟨hstrict, ?_⟩
  have hline : parseLine (doc.anchorText index) = none :=
    parseLine_of_mem (c := ':') (mem_append_right _ mem_cons_self) (by decide) (by decide)
  have hbare : rejectBareLineWriteAnchor (doc.anchorText index) (doc.anchorText index) = .ok () := by
    rw [rejectBareLineWriteAnchor, trim_anchorText, hline]
    rfl
  rw [resolveAnchorOrRange, splitRange_of_not_mem (dot_not_mem_anchorText doc index)]
  rw [hbare, hstrict]
  rfl

/-! ### Mutations -/

/-- The lines that a call takes out, from the first up to the one behind the last. -/
def target (doc : Document) (args : HashlineArgs) : Option (ℕ × ℕ) :=
  match args.action with
  | .edit | .delete =>
    args.anchor.bind fun anchor =>
      (resolveAnchorOrRange doc anchor).toOption.map fun (first, last) => (first, last + 1)
  | .insert =>
    args.anchor.bind fun anchor =>
      (resolveStrict doc anchor).toOption.map fun resolved =>
        let insertAt := if args.before then resolved.index else resolved.index + 1
        (insertAt, insertAt)
  | .read => none

/-- The lines that a call puts in. -/
def putIn (args : HashlineArgs) (content : Option Text) : List Text :=
  match args.action with
  | .edit => splitContent (args.content.getD [])
  | .insert => splitContent (content.getD [])
  | .delete | .read => []

theorem elim_eq_ok {ε α : Type} {x : Option α} {e : ε} {a : α} :
    x.elim (Except.error e) Except.ok = .ok a ↔ x = some a := by
  cases x <;> simp

variable {args : HashlineArgs} {content : Option Text}

/-- **A call takes lines out, puts lines in and leaves the rest of the document.** -/
theorem applyMutation_ok {changed : Changed} (h : applyMutation doc args content = .ok changed) :
    ∃ first last, target doc args = some (first, last) ∧
      changed.doc = doc.splice first last (putIn args content) := by
  unfold applyMutation at h
  unfold target putIn
  rcases haction : args.action with - | - | - | - <;> rw [haction] at h
  · cases h
  · -- edit
    obtain ⟨anchor, hanchor, h⟩ := bind_eq_ok.mp h
    obtain ⟨text, htext, h⟩ := bind_eq_ok.mp h
    obtain ⟨⟨first, last⟩, hrange, h⟩ := bind_eq_ok.mp h
    have hanchor := elim_eq_ok.mp hanchor
    have htext := elim_eq_ok.mp htext
    by_cases hmany : first = last ∧ (splitContent text).length > 1
    · simp only [if_pos hmany] at h
      cases h
    simp only [if_neg hmany] at h
    refine ⟨first, last + 1, ?_, ?_⟩
    · rw [hanchor]
      show (resolveAnchorOrRange doc anchor).toOption.map _ = _
      rw [hrange]
      rfl
    · cases h
      rw [htext]
      rfl
  · -- insert
    obtain ⟨anchor, hanchor, h⟩ := bind_eq_ok.mp h
    obtain ⟨text, htext, h⟩ := bind_eq_ok.mp h
    obtain ⟨resolved, hresolved, h⟩ := bind_eq_ok.mp h
    have hanchor := elim_eq_ok.mp hanchor
    have htext := elim_eq_ok.mp htext
    refine ⟨if args.before then resolved.index else resolved.index + 1,
      if args.before then resolved.index else resolved.index + 1, ?_, ?_⟩
    · rw [hanchor]
      show (resolveStrict doc anchor).toOption.map _ = _
      rw [hresolved]
      rfl
    · cases h
      rw [htext]
      rfl
  · -- delete
    obtain ⟨anchor, hanchor, h⟩ := bind_eq_ok.mp h
    obtain ⟨⟨first, last⟩, hrange, h⟩ := bind_eq_ok.mp h
    have hanchor := elim_eq_ok.mp hanchor
    refine ⟨first, last + 1, ?_, ?_⟩
    · rw [hanchor]
      show (resolveAnchorOrRange doc anchor).toOption.map _ = _
      rw [hrange]
      rfl
    · cases h
      rfl

theorem not_mem_of_mem_putIn (h : line ∈ putIn args content) : '\n' ∉ line := by
  unfold putIn at h
  split at h
  · exact not_mem_of_mem_splitContent h
  · exact not_mem_of_mem_splitContent h
  · cases h
  · cases h

/-- What the file has, with the lines of the call in place of those it takes out, is read again. -/
def StaysReadable (doc : Document) (args : HashlineArgs) (content : Option Text) : Prop :=
  ∃ first last, target doc args = some (first, last) ∧
    Rereads doc.newline doc.trailingNewline
      (doc.lines.take first ++ putIn args content ++ doc.lines.drop last)

/-- The anchors shown for a document name, in the document the next call reads, the same lines
with the same text. -/
def AnchorsUsable (shown next : Document) : Prop :=
  ∀ index < shown.lines.length, next.ResolvesTo (shown.anchorText index) index ∧
    next.lines[index]? = shown.lines[index]?

theorem anchorsUsable {shown : Document} (h : next.lines = shown.lines) :
    AnchorsUsable shown next :=
  fun _ hindex => ⟨resolvesTo_anchorText h hindex, by rw [h]⟩

/-- **When the next call reads what a mutation left.**  The anchors of a file that did not change
always work; a mutation is read back, line by line and with all of its anchors, exactly when the
lines it leaves meet the condition of `Rereads`. -/
theorem anchors_usable_iff {text : Text} {args : HashlineArgs} {content : Option Text}
    {changed : Changed} (h : applyMutation (.parse text) args content = .ok changed) :
    AnchorsUsable (.parse text) (.parse text) ∧
      ((Document.parse changed.doc.render).lines = changed.doc.lines ∧
          AnchorsUsable changed.doc (.parse changed.doc.render) ↔
        StaysReadable (.parse text) args content) := by
  refine ⟨anchorsUsable rfl, ?_⟩
  obtain ⟨first, last, htarget, hdoc⟩ := applyMutation_ok h
  have hseparated : changed.doc.Separated := by
    rw [hdoc]
    exact (separated_parse text).splice first last fun _ => not_mem_of_mem_putIn
  have hiff := parse_render_iff hseparated
  constructor
  · rintro ⟨hlines, -⟩
    refine ⟨first, last, htarget, ?_⟩
    have hrereads := hiff.mp hlines
    rwa [hdoc] at hrereads
  · rintro ⟨first', last', htarget', hrereads⟩
    obtain ⟨rfl, rfl⟩ : first = first' ∧ last = last' := by simpa [htarget] using htarget'
    have hlines := hiff.mpr (by rw [hdoc]; exact hrereads)
    exact ⟨hlines, anchorsUsable hlines⟩

section Example

/-- A line and an empty line. -/
def blankEnd : Text := ['a', '\n', '\n']

def deleteFirst : HashlineArgs :=
  ⟨.delete, some ((Document.parse blankEnd).anchorText 0), none, false, none⟩

def blankLeft : Changed := ⟨⟨[[]], .lf, true⟩, 0, 0, "Deleted".toList⟩

/-- The empty line that is left is shown with an anchor, and the next call finds no line. -/
theorem blankLeft_not_reread :
    applyMutation (.parse blankEnd) deleteFirst none = .ok blankLeft ∧
      (Document.parse blankLeft.doc.render).lines = [] ∧
      ¬ AnchorsUsable blankLeft.doc (.parse blankLeft.doc.render) := by
  refine ⟨by decide +kernel, by decide, fun h => ?_⟩
  have hline := (h 0 (by decide)).2
  cases hline

/-- Deleting the empty line instead leaves a file that is read again. -/
theorem line_left_reread :
    AnchorsUsable (.parse blankEnd) (.parse blankEnd) ∧
      ((Document.parse ['a', '\n']).lines = [['a']] ∧
          AnchorsUsable ⟨[['a']], .lf, true⟩ (.parse ['a', '\n']) ↔
        StaysReadable (.parse blankEnd)
          ⟨.delete, some ((Document.parse blankEnd).anchorText 1), none, false, none⟩ none) := by
  have hdeleted : applyMutation (.parse blankEnd)
      ⟨.delete, some ((Document.parse blankEnd).anchorText 1), none, false, none⟩ none =
        .ok ⟨⟨[['a']], .lf, true⟩, 0, 0, "Deleted".toList⟩ := by decide +kernel
  exact anchors_usable_iff hdeleted

end Example

end Hashline

end CodexPlus
