/-
CodexPlus/FileEditMatches.lean

Which occurrences an Edit replaces.

With `replace_all` every occurrence of the string that was found should be replaced, and
without it the only one.  A deletion that finds a line end behind some occurrence looks
for the string with that line end from there on, and leaves the occurrences that go on
otherwise (`replace_all_iff`).  The check for a single occurrence counts occurrences of
one spelling that do not overlap, while the search also accepts other spellings
(`single_edit_iff`).
-/
import CodexPlus.FileEdit

namespace CodexPlus

open List

namespace FileEdit

open FileRead StreamSearch Occurrences

/-! ### What the search finds -/

variable {needle text : Text}

theorem contains_iff :
    contains text needle ↔ ∃ i, find needle text = some i := Option.isSome_iff_exists

theorem contains_of_stands {j : ℕ} (hne : needle ≠ [])
    (h : needle <+: text.drop j) : contains text needle := by
  rcases hfind : find needle text with - | i
  · have hcount := count_pos hne h
    rw [count_of_none hfind] at hcount
    exact absurd hcount (Nat.lt_irrefl 0)
  · exact contains_iff.mpr ⟨i, hfind⟩

theorem lfToCrlf_ne_nil (h : text ≠ []) : lfToCrlf text ≠ [] := by
  obtain ⟨c, rest, rfl⟩ := exists_cons_of_ne_nil h
  rw [lfToCrlf, flatMap_cons]
  split <;> simp

variable {content old : Text}

theorem adaptedSearch_ne_nil (h : old ≠ []) : adaptedSearch content old ≠ [] := by
  unfold adaptedSearch
  split
  · exact lfToCrlf_ne_nil h
  · exact h

/-- The relation that the search uses: the string stands at a place of the file as it is, or else
with the line ends of the file, or else with all quotes taken for straight ones. -/
def MatchesAt (content old : Text) (place : ℕ) : Prop :=
  if contains content old then old <+: content.drop place
  else if contains content (adaptedSearch content old) then
    adaptedSearch content old <+: content.drop place
  else normalizeQuotes (adaptedSearch content old) <+: (normalizeQuotes content).drop place

instance (content old : Text) (place : ℕ) : Decidable (MatchesAt content old place) := by
  unfold MatchesAt
  infer_instance

/-- What `find_actual_string` gives. -/
structure Found (content old actual : Text) (place : ℕ) : Prop where
  find_eq : find actual content = some place
  first : ∀ q, MatchesAt content old q → place ≤ q
  self : MatchesAt content old place
  of_stands : ∀ q, actual <+: content.drop q → MatchesAt content old q
  ne_nil : actual ≠ []

theorem found_of_contains (hne : needle ≠ [])
    (hrel : ∀ q, MatchesAt content old q ↔ needle <+: content.drop q)
    (h : contains content needle) : ∃ place, Found content old needle place := by
  obtain ⟨place, hplace⟩ := contains_iff.mp h
  obtain ⟨-, hstands, hfirst⟩ := find_eq_some.mp hplace
  exact ⟨place, hplace, fun q hq => Nat.le_of_not_lt fun hlt => hfirst q hlt ((hrel q).mp hq),
    (hrel place).mpr hstands, fun q => (hrel q).mpr, hne⟩

/-- The text that is found up to quotes has the quotes of the file. -/
theorem found_of_spelling {place : ℕ} (hne : needle ≠ [])
    (hrel : ∀ q, MatchesAt content old q ↔ normalizeQuotes needle <+: (normalizeQuotes content).drop q)
    (hplace : find (normalizeQuotes needle) (normalizeQuotes content) = some place) :
    Found content old ((content.drop place).take (normalizeQuotes needle).length) place := by
  obtain ⟨hle, hstands, hfirst⟩ := find_eq_some.mp hplace
  have hdrop : ∀ q, (normalizeQuotes content).drop q = normalizeQuotes (content.drop q) :=
    fun q => map_drop.symm
  generalize hactual : (content.drop place).take (normalizeQuotes needle).length = actual
  have hspelled : normalizeQuotes actual = normalizeQuotes needle := by
    rw [← hactual, normalizeQuotes, map_take]
    rw [hdrop] at hstands
    exact (prefix_iff_eq_take.mp hstands).symm
  have hof : ∀ q, actual <+: content.drop q → MatchesAt content old q := by
    intro q hq
    rw [hrel, hdrop, ← hspelled]
    exact hq.map normalizeQuote
  have hself : actual <+: content.drop place := hactual ▸ take_prefix _ _
  have hlength : place ≤ content.length := by
    rwa [normalizeQuotes, length_map] at hle
  refine ⟨find_eq_some.mpr ⟨hlength, hself, fun j hj hat => ?_⟩, ?_, hof place hself, hof, ?_⟩
  · exact hfirst j hj ((hrel j).mp (hof j hat))
  · exact fun q hq => Nat.le_of_not_lt fun hlt => hfirst q hlt ((hrel q).mp hq)
  · rintro rfl
    exact hne (map_eq_nil_iff.mp hspelled.symm)

variable {actual : Text}

theorem findActualString_found (hne : old ≠ [])
    (h : findActualString content old = some actual) : ∃ place, Found content old actual place := by
  have hadapted : adaptedSearch content old ≠ [] := adaptedSearch_ne_nil hne
  unfold findActualString at h
  by_cases hself : contains content old
  · rw [if_pos hself] at h
    cases h
    exact found_of_contains hne (fun q => by rw [MatchesAt, if_pos hself]) hself
  rw [if_neg hself] at h
  by_cases hlines : contains content (adaptedSearch content old)
  · simp only [if_pos hlines] at h
    cases h
    exact found_of_contains hadapted
      (fun q => by rw [MatchesAt, if_neg hself, if_pos hlines]) hlines
  · -- the quotes differ
    simp only [if_neg hlines] at h
    obtain ⟨place, hplace, rfl⟩ := Option.map_eq_some_iff.mp h
    have hrel : ∀ q, MatchesAt content old q ↔
        normalizeQuotes (adaptedSearch content old) <+: (normalizeQuotes content).drop q :=
      fun q => by rw [MatchesAt, if_neg hself, if_neg hlines]
    exact ⟨place, found_of_spelling hadapted hrel hplace⟩

/-! ### What the replacement does -/

variable {updated : Text}

theorem updatedContent_ok {original search replacement : Text} {all : Bool}
    (h : updatedContent original search replacement all = .ok updated) :
    updated = if all then replaceAll search replacement original
      else replaceFirst search replacement original := by
  cases all with
  | true | false =>
    obtain ⟨-, -, hupdated⟩ := map_eq_ok.mp h
    exact hupdated.symm

variable {request : EditContentRequest}

theorem replaceFound_ok {edit : PreparedEdit} (h : replaceFound request content actual = .ok edit) :
    (request.replaceAll = false → count actual content ≤ 1) ∧
      let (search, replacement) :=
        searchAndReplacement content actual (actualNewString request actual)
      edit.updatedContent = if request.replaceAll then replaceAll search replacement content
        else replaceFirst search replacement content := by
  unfold replaceFound at h
  simp only at h
  split at h
  · cases h
  · next hsingle =>
    obtain ⟨updated, hupdated, h⟩ := bind_eq_ok.mp h
    split at h
    · cases h
    · cases h
      refine ⟨fun hall => ?_, updatedContent_ok hupdated⟩
      exact Nat.le_of_not_lt fun hmany => hsingle ⟨hmany, hall⟩

/-- What a replacement that succeeds had and gave. -/
theorem handleFileEdit_ok {path message : Text}
    (h : handleFileEdit path request (some content) = .ok (updated, message)) :
    request.oldString = [] ∧ updated = request.newString ∨
      request.oldString ≠ [] ∧ ∃ actual,
        findActualString content request.oldString = some actual ∧
        (request.replaceAll = false → count actual content ≤ 1) ∧
        let (search, replacement) :=
          searchAndReplacement content actual (actualNewString request actual)
        updated = if request.replaceAll then replaceAll search replacement content
          else replaceFirst search replacement content := by
  unfold handleFileEdit at h
  split at h
  · cases h
  obtain ⟨edit, hedit, h⟩ := map_eq_ok.mp h
  cases h
  unfold prepareEdit at hedit
  split at hedit
  · cases hedit
  by_cases hold : request.oldString = []
  · simp only [hold, isEmpty_nil, if_true] at hedit
    split at hedit
    · cases hedit
      exact .inl ⟨hold, rfl⟩
    · cases hedit
  · have hempty : request.oldString.isEmpty = false := by simpa using hold
    simp only [hempty] at hedit
    rcases hactual : findActualString content request.oldString with - | actual
    · simp [hactual] at hedit
    · simp only [hactual, Bool.false_eq_true, if_false] at hedit
      obtain ⟨hcount, hupdated⟩ := replaceFound_ok hedit
      exact .inr ⟨hold, actual, rfl, hcount, hupdated⟩

/-- What is searched for: the string, or the string and a line end that is deleted with it. -/
theorem searchAndReplacement_cases (content actual new : Text) :
    searchAndReplacement content actual new = (actual, new) ∧
        (new ≠ [] ∨ actual.getLast? = some '\n' ∨
          contains content (actual ++ lineEnding content actual) = false) ∨
      searchAndReplacement content actual new = (actual ++ lineEnding content actual, []) ∧
        new = [] ∧ actual.getLast? ≠ some '\n' ∧
        contains content (actual ++ lineEnding content actual) := by
  unfold searchAndReplacement
  by_cases hdelete : new.isEmpty && actual.getLast? ≠ some '\n'
  · rw [if_pos hdelete]
    simp only [Bool.and_eq_true, List.isEmpty_iff, decide_eq_true_eq] at hdelete
    by_cases hline : contains content (actual ++ lineEnding content actual)
    · exact .inr ⟨if_pos hline, hdelete.1, hdelete.2, hline⟩
    · exact .inl ⟨if_neg hline, .inr (.inr (by simpa using hline))⟩
  · rw [if_neg hdelete]
    simp only [Bool.and_eq_true, List.isEmpty_iff, decide_eq_true_eq, not_and_or, not_not] at hdelete
    exact .inl ⟨rfl, hdelete.imp id .inl⟩

theorem lineEnding_cases (content actual : Text) :
    lineEnding content actual = ['\r', '\n'] ∨
      lineEnding content actual = ['\n'] ∧ contains content (actual ++ ['\r', '\n']) = false := by
  unfold lineEnding
  split
  · exact .inl rfl
  · next h => exact .inr ⟨rfl, by simpa using h⟩

/-! ### The only match -/

/-- The text behind a replacement: a deletion may take the line end at its start. -/
def Behind (new before after : Text) : Prop :=
  after = before ∨ new = [] ∧ (before = '\n' :: after ∨ before = '\r' :: '\n' :: after)

/-- The match at a place is the only one, and it alone is replaced. -/
def OnlyMatchReplaced (content old new updated : Text) (length place : ℕ) : Prop :=
  (∀ q, MatchesAt content old q ↔ q = place) ∧
    ∃ after, Behind new (content.drop (place + length)) after ∧
      updated = content.take place ++ new ++ after

/-- Matches do not overlap, and are spelled in the same way. -/
def ApartAndAlike (content old : Text) (length : ℕ) : Prop :=
  ∀ p q, MatchesAt content old p → MatchesAt content old q → p < q →
    p + length ≤ q ∧ (content.drop p).take length = (content.drop q).take length

theorem replaceFirst_of_some {new : Text} {i : ℕ} (h : find needle text = some i) :
    replaceFirst needle new text = text.take i ++ new ++ text.drop (i + needle.length) := by
  rw [replaceFirst, h]

/-- What is replaced when there is one match. -/
theorem replaceFirst_only {new : Text} {place : ℕ}
    (h : Found content old actual place) (honly : ∀ q, MatchesAt content old q ↔ q = place) :
    let (search, replacement) := searchAndReplacement content actual new
    ∃ after, Behind new (content.drop (place + actual.length)) after ∧
      replaceFirst search replacement content = content.take place ++ new ++ after := by
  rcases searchAndReplacement_cases content actual new with ⟨hsearch, -⟩ | ⟨hsearch, rfl, -, hline⟩
  · rw [hsearch]
    exact ⟨_, .inl rfl, replaceFirst_of_some h.find_eq⟩
  -- the line end is found behind the only match
  rw [hsearch]
  obtain ⟨i, hi⟩ := contains_iff.mp hline
  obtain ⟨-, hstands, -⟩ := find_eq_some.mp hi
  obtain rfl : i = place := (honly i).mp (h.of_stands i ((prefix_append _ _).trans hstands))
  refine ⟨content.drop (i + (actual ++ lineEnding content actual).length), .inr ⟨rfl, ?_⟩,
    replaceFirst_of_some hi⟩
  have hbehind : content.drop (i + actual.length) = lineEnding content actual ++
      content.drop (i + (actual ++ lineEnding content actual).length) := by
    obtain ⟨rest, hrest⟩ := hstands
    rw [← drop_drop, ← drop_drop, ← hrest, drop_left, append_assoc, drop_left]
  rcases lineEnding_cases content actual with hending | ⟨hending, -⟩
  · rw [hending] at hbehind ⊢
    exact .inr hbehind
  · rw [hending] at hbehind ⊢
    exact .inl hbehind

/-- **When a single Edit hits the only match.**  Unless the file is created, the string matches at
one place and this match alone is replaced, exactly when its matches in the file neither overlap
nor differ in spelling. -/
theorem single_edit_iff {path content updated message : Text} {request : EditContentRequest}
    (hsingle : request.replaceAll = false)
    (h : handleFileEdit path request (some content) = .ok (updated, message)) :
    request.oldString = [] ∧ updated = request.newString ∨
      request.oldString ≠ [] ∧ ∃ actual,
        findActualString content request.oldString = some actual ∧
        ((∃ place, OnlyMatchReplaced content request.oldString (actualNewString request actual)
            updated actual.length place) ↔
          ApartAndAlike content request.oldString actual.length) := by
  rcases handleFileEdit_ok h with hcreated | ⟨hold, actual, hactual, hcount, hupdated⟩
  · exact .inl hcreated
  refine .inr ⟨hold, actual, hactual, ?_⟩
  obtain ⟨place, hfound⟩ := findActualString_found hold hactual
  constructor
  · rintro ⟨other, honly, -⟩ p q hp hq hlt
    have heq : p = q := ((honly p).mp hp).trans ((honly q).mp hq).symm
    exact absurd heq hlt.ne
  · intro happart
    -- another match would have the spelling that is counted, and lie behind the first one
    have honly : ∀ q, MatchesAt content request.oldString q ↔ q = place := by
      refine fun q => ⟨fun hq => ?_, fun hq => hq ▸ hfound.self⟩
      by_contra hne
      have hlt : place < q := lt_of_le_of_ne (hfound.first q hq) (Ne.symm hne)
      obtain ⟨hbehind, hspelled⟩ := happart place q hfound.self hq hlt
      obtain ⟨-, hstands, -⟩ := find_eq_some.mp hfound.find_eq
      have hagain : actual <+: content.drop q := by
        rw [prefix_iff_eq_take, ← hspelled]
        exact prefix_iff_eq_take.mp hstands
      have htwo := two_le_count hfound.ne_nil hfound.find_eq hbehind hagain
      have hone := hcount hsingle
      omega
    refine ⟨place, honly, ?_⟩
    simp only [hsingle, Bool.false_eq_true, if_false] at hupdated
    rw [hupdated]
    exact replaceFirst_only hfound honly

section SingleExample

def aa : EditContentRequest := ⟨['a', 'a'], ['b'], false⟩

/-- The string stands at two places that overlap, and the first is replaced. -/
theorem overlapping_replaced :
    handleFileEdit [] aa (some ['a', 'a', 'a']) = .ok (['b', 'a'], editMessage [] false) ∧
      MatchesAt ['a', 'a', 'a'] aa.oldString 0 ∧ MatchesAt ['a', 'a', 'a'] aa.oldString 1 := by
  refine ⟨by decide +kernel, by decide, by decide⟩

/-- With one place it is the only one. -/
theorem only_place_replaced :
    aa.oldString = [] ∧ ['b', 'c'] = aa.newString ∨
      aa.oldString ≠ [] ∧ ∃ actual, findActualString ['a', 'a', 'c'] aa.oldString = some actual ∧
        ((∃ place, OnlyMatchReplaced ['a', 'a', 'c'] aa.oldString (actualNewString aa actual)
            ['b', 'c'] actual.length place) ↔
          ApartAndAlike ['a', 'a', 'c'] aa.oldString actual.length) := by
  have hedit : handleFileEdit [] aa (some ['a', 'a', 'c']) =
      .ok (['b', 'c'], editMessage [] false) := by decide +kernel
  exact single_edit_iff rfl hedit

end SingleExample

/-! ### Every occurrence -/

/-- Every occurrence, from left to right and without overlaps, is replaced. -/
def ReplacesEvery (old new content updated : Text) : Prop :=
  ∃ piece befores afters, pieces old content = piece :: befores ∧
    List.Forall₂ (Behind new) befores afters ∧ updated = new.intercalate (piece :: afters)

/-- At how many places the text is replaced. -/
def replacedPlaces (content actual new : Text) : ℕ :=
  count (searchAndReplacement content actual new).1 content

/-- Nothing is deleted, or the string ends a line itself, or no line end is found behind it, or the
same line end stands behind every occurrence. -/
def LineEndsAlike (content actual new : Text) : Prop :=
  new ≠ [] ∨ actual.getLast? = some '\n' ∨
    contains content (actual ++ lineEnding content actual) = false ∨
    ∀ behind ∈ (pieces actual content).tail, lineEnding content actual <+: behind

theorem intercalate_nil (parts : List Text) : ([] : Text).intercalate parts = parts.flatten := by
  induction parts with
  | nil => rfl
  | cons _ rest ih =>
    cases rest with
    | nil => simp
    | cons => rw [intercalate_cons_cons, ih]; simp

/-- A deletion takes at most the line end it looks for, and takes it only where it stands. -/
theorem behind_length {before after : Text} (hne : actual ≠ [])
    (hmem : before ∈ (pieces actual content).tail) (h : Behind [] before after) :
    before.length ≤ after.length + (lineEnding content actual).length ∧
      (before.length = after.length + (lineEnding content actual).length →
        lineEnding content actual <+: before) := by
  rcases lineEnding_cases content actual with hending | ⟨hending, hnone⟩
  · rw [hending]
    rcases h with rfl | ⟨-, rfl | rfl⟩
    · exact ⟨by simp, by simp⟩
    · exact ⟨by simp, by simp⟩
    · exact ⟨by simp, fun _ => ⟨after, rfl⟩⟩
  · rw [hending]
    rcases h with rfl | ⟨-, rfl | rfl⟩
    · exact ⟨by simp, by simp⟩
    · exact ⟨by simp, fun _ => ⟨after, rfl⟩⟩
    · -- a longer line end would have been looked for
      obtain ⟨j, hj⟩ := exists_of_mem_tail hne hmem
      have hlong : actual ++ ['\r', '\n'] <+: content.drop j :=
        ((prefix_append_right_inj actual).mpr ⟨after, rfl⟩).trans hj
      rw [contains_of_stands (by simp) hlong] at hnone
      cases hnone

/-- **Which deletions leave no occurrence.** -/
theorem deletes_every_iff (hne : actual ≠ [])
    (hupdated : updated = replaceAll (actual ++ lineEnding content actual) [] content) :
    (ReplacesEvery actual [] content updated ∧
        count (actual ++ lineEnding content actual) content = count actual content) ↔
      ∀ behind ∈ (pieces actual content).tail, lineEnding content actual <+: behind := by
  have hlong : actual ++ lineEnding content actual ≠ [] := by simp [hne]
  rw [replaceAll, intercalate_nil] at hupdated
  constructor
  · rintro ⟨⟨piece, befores, afters, hpieces, hbehind, hafter⟩, hcount⟩
    rw [intercalate_nil] at hafter
    have htotal := length_eq hne content
    have htotal' := length_eq hlong content
    have hplaces : count actual content = befores.length := by rw [Occurrences.count, hpieces]; rfl
    rw [hpieces, hplaces, flatten_cons, length_append] at htotal
    rw [hcount, hplaces, ← hupdated, hafter, flatten_cons, length_append,
      length_append, Nat.mul_add] at htotal'
    rw [hpieces]
    -- every piece lost as much as it could
    have hlost : List.Forall₂ (fun before after => before ∈ (pieces actual content).tail ∧
        Behind [] before after) befores afters :=
      (forall₂_and_left _ _).mpr ⟨fun before hmem => by rwa [hpieces], hbehind⟩
    have hends := forall_of_length_eq
      (fun before after hlost => (behind_length hne hlost.1 hlost.2).1)
      (fun before after hlost => (behind_length hne hlost.1 hlost.2).2) hlost
    exact hends.2 (by omega)
  · intro hends
    obtain ⟨piece, befores, hpieces⟩ :=
      exists_cons_of_ne_nil (pieces_ne_nil actual content hne)
    rw [hpieces] at hends
    have hlongPieces := pieces_append hne hpieces hends
    refine ⟨⟨piece, befores, befores.map (·.drop (lineEnding content actual).length), hpieces, ?_, ?_⟩,
      ?_⟩
    · refine forall₂_map_right_iff.mpr (forall₂_same.mpr fun before hmem => ?_)
      obtain ⟨after, rfl⟩ := hends before hmem
      rcases lineEnding_cases content actual with hending | ⟨hending, -⟩
      · rw [hending]
        exact .inr ⟨rfl, .inr rfl⟩
      · rw [hending]
        exact .inr ⟨rfl, .inl rfl⟩
    · rw [hupdated, hlongPieces, intercalate_nil]
    · rw [Occurrences.count, Occurrences.count, hlongPieces, hpieces, length_cons, length_cons, length_map]

/-- **When `replace_all` replaces all.**  Unless the file is created, every occurrence of the string
that was found is replaced, at as many places as there are occurrences, exactly when nothing is
deleted, no line end comes into it, or the same line end stands behind every occurrence. -/
theorem replace_all_iff {path content updated message : Text} {request : EditContentRequest}
    (hall : request.replaceAll = true)
    (h : handleFileEdit path request (some content) = .ok (updated, message)) :
    request.oldString = [] ∧ updated = request.newString ∨
      request.oldString ≠ [] ∧ ∃ actual,
        findActualString content request.oldString = some actual ∧
        (ReplacesEvery actual (actualNewString request actual) content updated ∧
            replacedPlaces content actual (actualNewString request actual) = count actual content ↔
          LineEndsAlike content actual (actualNewString request actual)) := by
  rcases handleFileEdit_ok h with hcreated | ⟨hold, actual, hactual, -, hupdated⟩
  · exact .inl hcreated
  refine .inr ⟨hold, actual, hactual, ?_⟩
  obtain ⟨place, hfound⟩ := findActualString_found hold hactual
  have hne := hfound.ne_nil
  simp only [hall, if_true] at hupdated
  generalize actualNewString request actual = new at hupdated ⊢
  unfold replacedPlaces LineEndsAlike
  rcases searchAndReplacement_cases content actual new with
    ⟨hsearch, hcase⟩ | ⟨hsearch, rfl, hend, hline⟩
  · -- the string alone is searched for
    rw [hsearch] at hupdated ⊢
    refine iff_of_true ⟨?_, rfl⟩ ?_
    · obtain ⟨piece, befores, hpieces⟩ :=
        exists_cons_of_ne_nil (pieces_ne_nil actual content hne)
      refine ⟨piece, befores, befores, hpieces, forall₂_same.mpr fun _ _ => .inl rfl, ?_⟩
      rw [hupdated, replaceAll, hpieces]
    · rcases hcase with hnew | hend | hnone
      · exact .inl hnew
      · exact .inr (.inl hend)
      · exact .inr (.inr (.inl hnone))
  · rw [hsearch] at hupdated ⊢
    rw [deletes_every_iff hne hupdated]
    simp [hend, hline]

section AllExample

def deleteFoo : EditContentRequest := ⟨"foo".toList, [], true⟩

/-- The first occurrence stays, because the second ends a line. -/
theorem first_foo_left :
    handleFileEdit [] deleteFoo (some "foo bar foo\n".toList) =
        .ok ("foo bar ".toList, editMessage [] true) ∧
      findActualString "foo bar foo\n".toList deleteFoo.oldString = some "foo".toList ∧
      ¬ ReplacesEvery "foo".toList [] "foo bar foo\n".toList "foo bar ".toList ∧
      count "foo".toList "foo bar foo\n".toList = 2 ∧
      replacedPlaces "foo bar foo\n".toList "foo".toList [] = 1 := by
  have hcut : pieces "foo".toList "foo bar foo\n".toList = [[], " bar ".toList, ['\n']] := by
    decide +kernel
  refine ⟨by decide +kernel, by decide +kernel, ?_, by decide +kernel, by decide +kernel⟩
  rintro ⟨piece, befores, afters, hpieces, hbehind, hupdated⟩
  -- what is left would start with the text between the occurrences
  obtain ⟨rfl, rfl⟩ := List.cons.inj (hcut.symm.trans hpieces)
  obtain ⟨after, rest, hafter, -, rfl⟩ := forall₂_cons_left_iff.mp hbehind
  rcases hafter with rfl | ⟨-, hline | hline⟩
  · rw [intercalate_nil] at hupdated
    cases hupdated
  all_goals cases hline

/-- Two occurrences that end a line are deleted with their lines. -/
theorem both_foos_deleted :
    deleteFoo.oldString = [] ∧ [] = deleteFoo.newString ∨
      deleteFoo.oldString ≠ [] ∧ ∃ actual,
        findActualString "foo\nfoo\n".toList deleteFoo.oldString = some actual ∧
        (ReplacesEvery actual (actualNewString deleteFoo actual) "foo\nfoo\n".toList [] ∧
            replacedPlaces "foo\nfoo\n".toList actual (actualNewString deleteFoo actual) =
              count actual "foo\nfoo\n".toList ↔
          LineEndsAlike "foo\nfoo\n".toList actual (actualNewString deleteFoo actual)) := by
  have hedit : handleFileEdit [] deleteFoo (some "foo\nfoo\n".toList) =
      .ok ([], editMessage [] true) := by decide +kernel
  exact replace_all_iff rfl hedit

end AllExample

end FileEdit

end CodexPlus
