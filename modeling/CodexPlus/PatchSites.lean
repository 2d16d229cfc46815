/-
CodexPlus/PatchSites.lean

Where the chunks of an update find their lines.

`locate` is the search of `compute_replacements` by itself: each chunk with the place its
lines were found at, with or without the retry at the end of the file.  What is
collected are the replacements of these sites (`collectReplacements_eq`).  Sites stand one
behind the other, but for those of chunks without old lines, which stand at the end of
the file (`locate_ok`).
-/
import CodexPlus.PatchChanges

namespace CodexPlus

open List

namespace Patch

/-! ### Finding lines -/

/-- Where lines are found. -/
structure StandsAt (lines pattern : List Text) (i : ℕ) : Prop where
  within : i + pattern.length ≤ lines.length
  matched : ∃ view ∈ [id, trimEnd, trim, normalise], matchesAt view lines pattern i

/-- The views under which `seek_sequence` compares lines, from strict to lenient. -/
def levels : List (Text → Text) := [id, trimEnd, trim, normalise]

section Seek

variable {view : Text → Text} {lines pattern : List Text} {start i : ℕ}

theorem matchesAt_iff : matchesAt view lines pattern i ↔
    ((lines.drop i).take pattern.length).map view = pattern.map view := beq_iff_eq

section

variable (hne : pattern ≠ [])
include hne

theorem within_of_matchesAt (h : matchesAt view lines pattern i) :
    i + pattern.length ≤ lines.length := by
  have hlen := congrArg length (matchesAt_iff.mp h)
  have := length_pos_of_ne_nil hne
  simp only [length_map, length_take, length_drop] at hlen
  omega

theorem seekWith_eq_none : seekWith view lines pattern start = none ↔
    ∀ j, start ≤ j → ¬ matchesAt view lines pattern j := by
  rw [seekWith, find?_range'_eq_none]
  refine forall₂_congr fun j _ => ⟨fun h hm => ?_, fun h _ => by simpa using h⟩
  have := within_of_matchesAt hne hm
  simp [hm] at h
  omega

theorem seekWith_eq_some : seekWith view lines pattern start = some i ↔
    start ≤ i ∧ matchesAt view lines pattern i ∧
      ∀ j, start ≤ j → j < i → ¬ matchesAt view lines pattern j := by
  rw [seekWith, find?_range'_eq_some]
  constructor
  · rintro ⟨hm, hmem, hleast⟩
    exact ⟨(mem_range'_1.mp hmem).1, hm, by simpa using hleast⟩
  · rintro ⟨hi, hm, hleast⟩
    have := within_of_matchesAt hne hm
    exact ⟨hm, mem_range'_1.mpr (by omega), by simpa using hleast⟩

theorem seekSequence_eq (eof : Bool) :
    seekSequence lines pattern start eof = levels.findSome? fun view =>
      seekWith view lines pattern
        (if eof then max (lines.length - pattern.length) start else start) := by
  unfold seekSequence
  rw [if_neg hne]
  split
  · next hlong =>
    refine (findSome?_eq_none_iff.mpr fun view _ => (seekWith_eq_none hne).mpr fun i _ hm => ?_).symm
    have := within_of_matchesAt hne hm
    omega
  · simp only [levels, findSome?_cons, findSome?_nil]
    generalize (if eof then _ else _ : ℕ) = searchStart
    rcases seekWith id lines pattern searchStart with - | i
    swap; · rfl
    rcases seekWith trimEnd lines pattern searchStart with - | i
    swap; · rfl
    rcases seekWith trim lines pattern searchStart with - | i
    swap; · rfl
    rcases seekWith normalise lines pattern searchStart with - | i <;> rfl

end

theorem seekSequence_spec {eof : Bool} (hstart : start ≤ lines.length)
    (h : seekSequence lines pattern start eof = some i) : start ≤ i ∧ StandsAt lines pattern i := by
  by_cases hne : pattern = []
  · subst hne
    cases h
    exact ⟨le_rfl, hstart, id, by simp, by simp [matchesAt]⟩
  · rw [seekSequence_eq hne] at h
    obtain ⟨view, hview, hsome⟩ := exists_of_findSome?_eq_some h
    obtain ⟨hge, hm, -⟩ := (seekWith_eq_some hne).mp hsome
    refine ⟨le_trans ?_ hge, within_of_matchesAt hne hm, view, hview, hm⟩
    split
    · exact le_max_right _ _
    · exact le_rfl

end Seek

/-- What matches at one level matches at every later one. -/
theorem levels_nested : levels.Pairwise fun view coarser =>
    ∀ lines pattern i, matchesAt view lines pattern i → matchesAt coarser lines pattern i := by
  -- each view factors through the stricter ones
  have hfactor : levels.Pairwise fun view coarser => ∃ f, coarser = f ∘ view := by
    have htrim : trim = trim ∘ trimEnd := funext fun s => (trim_trimEnd s).symm
    simp only [levels, pairwise_cons, mem_cons, forall_eq_or_imp, not_mem_nil]
    exact ⟨⟨⟨trimEnd, rfl⟩, ⟨trim, rfl⟩, ⟨normalise, rfl⟩, nofun⟩,
      ⟨⟨trim, htrim⟩, ⟨normalise, funext fun s => congrArg (map normaliseChar) (congrFun htrim s)⟩,
        nofun⟩, ⟨⟨map normaliseChar, rfl⟩, nofun⟩, nofun, Pairwise.nil⟩
  refine hfactor.imp fun ⟨f, hf⟩ lines pattern i h => ?_
  rw [matchesAt_iff] at h ⊢
  rw [hf, ← map_map, ← map_map, h]

/-- **The strictest match is found.**  Lines are found at the least place of the strictest level that
has one; at the end of the file only the last place where they fit is looked at. -/
theorem seekSequence_strictest (lines pattern : List Text) (start : ℕ) (hne : pattern ≠ []) :
    (∀ i, seekSequence lines pattern start false = some i ↔
      ∃ stricter view coarser, levels = stricter ++ view :: coarser ∧
        (start ≤ i ∧ matchesAt view lines pattern i ∧
          ∀ j, start ≤ j → j < i → ¬ matchesAt view lines pattern j) ∧
        ∀ v ∈ stricter, ∀ j, start ≤ j → ¬ matchesAt v lines pattern j) ∧
    (seekSequence lines pattern start false = none ↔
      ∀ view ∈ levels, ∀ j, start ≤ j → ¬ matchesAt view lines pattern j) ∧
    (∀ i, seekSequence lines pattern start true = some i ↔
      i = max start (lines.length - pattern.length) ∧ i + pattern.length ≤ lines.length ∧
        ∃ view ∈ levels, matchesAt view lines pattern i) ∧
    levels.Pairwise fun view coarser =>
      ∀ i, matchesAt view lines pattern i → matchesAt coarser lines pattern i := by
  have hend : ∀ i, seekSequence lines pattern start true = some i →
      i = max start (lines.length - pattern.length) ∧ i + pattern.length ≤ lines.length ∧
        ∃ view ∈ levels, matchesAt view lines pattern i := fun i h => by
    rw [seekSequence_eq hne] at h
    obtain ⟨view, hview, hsome⟩ := exists_of_findSome?_eq_some h
    obtain ⟨hge, hm, -⟩ := (seekWith_eq_some hne).mp hsome
    have hfits := within_of_matchesAt hne hm
    simp only [if_true] at hge
    exact ⟨by omega, hfits, view, hview, hm⟩
  refine ⟨fun i => ?_, ?_, fun i => ⟨hend i, fun ⟨hi, _, view, hview, hm⟩ => ?_⟩,
    levels_nested.imp fun h => h lines pattern⟩
  · rw [seekSequence_eq hne, findSome?_eq_some_iff]
    simp only [seekWith_eq_some hne, seekWith_eq_none hne]
    rfl
  · rw [seekSequence_eq hne, findSome?_eq_none_iff]
    simp only [seekWith_eq_none hne]
    rfl
  · rcases hseek : seekSequence lines pattern start true with - | j
    · rw [seekSequence_eq hne, findSome?_eq_none_iff] at hseek
      exact absurd hm ((seekWith_eq_none hne).mp (hseek view hview) i (by simp [hi, max_comm]))
    · rw [hi, (hend j hseek).1]

theorem seekSequence_strictest_line :
    [['a']] ≠ [] ∧ (seekSequence [['b'], ['a', ' ']] [['a']] 0 false = none ↔ ∀ view ∈ levels,
      ∀ j, 0 ≤ j → ¬ matchesAt view [['b'], ['a', ' ']] [['a']] j) :=
  ⟨by decide, (seekSequence_strictest _ [['a']] 0 (by decide)).2.1⟩

/-! ### The stretches of a chunk -/

/-- Context positions that grow on both sides. -/
def Increasing : ℕ → ℕ → List (ℕ × ℕ) → Prop
  | _, _, [] => True
  | oldStart, newStart, (oldContext, newContext) :: indices =>
    oldStart ≤ oldContext ∧ newStart ≤ newContext ∧
      Increasing (oldContext + 1) (newContext + 1) indices

theorem Increasing.mono {oldStart oldStart' newStart newStart' : ℕ} {indices : List (ℕ × ℕ)}
    (h : Increasing oldStart' newStart' indices) (hold : oldStart ≤ oldStart')
    (hnew : newStart ≤ newStart') : Increasing oldStart newStart indices := by
  cases indices with
  | nil => trivial
  | cons => exact ⟨hold.trans h.1, hnew.trans h.2.1, h.2.2⟩

theorem increasing_contextIndices (changes : List Change) (oldIndex newIndex : ℕ) :
    Increasing oldIndex newIndex (Change.contextIndices oldIndex newIndex changes) := by
  induction changes generalizing oldIndex newIndex with
  | nil => trivial
  | cons change _ ih =>
    rcases change with ⟨kind, text⟩
    cases kind with
    | context => exact ⟨le_rfl, le_rfl, ih _ _⟩
    | added => exact (ih oldIndex (newIndex + 1)).mono le_rfl (Nat.le_succ _)
    | removed => exact (ih (oldIndex + 1) newIndex).mono (Nat.le_succ _) le_rfl

section Stretches

variable {startIdx oldStart newStart : ℕ} {pattern newSlice : List Text} {indices : List (ℕ × ℕ)}

/-- A list of stretches inside a part of the file, one behind the other. -/
structure Stretches (first last : ℕ) (replacements : List Replacement) : Prop where
  inside : ∀ r ∈ replacements, first ≤ r.start ∧ r.start + r.oldLen ≤ last
  apart : replacements.Pairwise fun r r' => r.start + r.oldLen ≤ r'.start

theorem stretches_nil (first last : ℕ) : Stretches first last [] :=
  ⟨nofun, List.Pairwise.nil⟩

theorem stretches_singleton {first last : ℕ} {r : Replacement} (hfirst : first ≤ r.start)
    (hlast : r.start + r.oldLen ≤ last) : Stretches first last [r] :=
  ⟨fun _ hmem => mem_singleton.mp hmem ▸ ⟨hfirst, hlast⟩, pairwise_singleton _ _⟩

theorem Stretches.append {first middle last : ℕ} {before after : List Replacement}
    (h : Stretches first middle before) (h' : Stretches middle last after) (hle : first ≤ middle)
    (hle' : middle ≤ last) : Stretches first last (before ++ after) := by
  refine ⟨fun r hmem => ?_, pairwise_append.mpr ⟨h.apart, h'.apart, fun r hr r' hr' => ?_⟩⟩
  · rcases mem_append.mp hmem with hmem | hmem
    · exact ⟨(h.inside r hmem).1, (h.inside r hmem).2.trans hle'⟩
    · exact ⟨hle.trans (h'.inside r hmem).1, (h'.inside r hmem).2⟩
  · exact (h.inside r hr).2.trans (h'.inside r' hr').1

theorem finish_stretches (hold : oldStart ≤ pattern.length) :
    Stretches (startIdx + oldStart) (startIdx + pattern.length)
      (chunkReplacements.finish startIdx pattern newSlice oldStart newStart) := by
  unfold chunkReplacements.finish
  split
  · refine stretches_singleton le_rfl ?_
    show startIdx + oldStart + (pattern.length - oldStart) ≤ startIdx + pattern.length
    omega
  · exact stretches_nil _ _

/-- The stretches of a chunk lie where its lines were found. -/
theorem chunkReplacements_stretches (h : Increasing oldStart newStart indices)
    (hold : oldStart ≤ pattern.length) :
    Stretches (startIdx + oldStart) (startIdx + pattern.length)
      (chunkReplacements startIdx pattern newSlice oldStart newStart indices) := by
  induction indices generalizing oldStart newStart with
  | nil =>
    exact finish_stretches hold
  | cons index _ ih =>
    obtain ⟨oldContext, newContext⟩ := index
    obtain ⟨hold', -, hrest⟩ := h
    rw [chunkReplacements]
    split
    · exact finish_stretches hold
    · next hin =>
      rw [not_or, not_le] at hin
      have hlater := ih hrest hin.1
      have hhere : Stretches (startIdx + oldStart) (startIdx + (oldContext + 1))
          (if oldStart ≠ oldContext ∨ newStart ≠ newContext then
            [⟨startIdx + oldStart, oldContext - oldStart,
              (newSlice.drop newStart).take (newContext - newStart)⟩]
          else []) := by
        split
        · refine stretches_singleton le_rfl ?_
          show startIdx + oldStart + (oldContext - oldStart) ≤ startIdx + (oldContext + 1)
          omega
        · exact stretches_nil _ _
      exact hhere.append hlater (by omega) (by omega)

end Stretches

/-! ### Sites -/

/-- A chunk with the place of its lines. -/
structure Site where
  chunk : UpdateFileChunk
  start : ℕ
  retried : Bool

namespace Site

def pattern (site : Site) : List Text :=
  if site.retried then site.chunk.oldLines.dropLast else site.chunk.oldLines

def newSlice (site : Site) : List Text :=
  if site.retried then dropTrailingEmpty site.chunk.newLines else site.chunk.newLines

/-- A chunk without old lines adds its lines whatever their number. -/
def replacements (site : Site) : List Replacement :=
  if site.chunk.oldLines = [] then [⟨site.start, 0, site.chunk.newLines⟩]
  else chunkReplacements site.start site.pattern site.newSlice 0 0 site.chunk.contextLineIndices

end Site

/-- The line from which a chunk is searched: behind its context line, if it has one. -/
def searchFrom (lines : List Text) (path : Text) (lineIndex : ℕ) : Option Text → Except Text ℕ
  | none => .ok lineIndex
  | some ctxLine =>
    match seekSequence lines [ctxLine] lineIndex false with
    | some idx => .ok (idx + 1)
    | none => .error ("Failed to find context '".toList ++ ctxLine ++ "' in ".toList ++ path)

/-- The site of a chunk, and the line from which the next one is searched. -/
def place (lines : List Text) (path : Text) (chunk : UpdateFileChunk) (lineIndex : ℕ) :
    Except Text (Site × ℕ) :=
  if chunk.oldLines = [] then .ok (⟨chunk, lines.length, false⟩, lineIndex)
  else
    match seekSequence lines chunk.oldLines lineIndex chunk.isEndOfFile with
    | some start => .ok (⟨chunk, start, false⟩, start + chunk.oldLines.length)
    | none =>
      match if chunk.oldLines.getLast? = some [] then
          seekSequence lines chunk.oldLines.dropLast lineIndex chunk.isEndOfFile else none with
      | some start => .ok (⟨chunk, start, true⟩, start + chunk.oldLines.dropLast.length)
      | none =>
        .error ("Failed to find expected lines in ".toList ++ path ++ ":\n".toList ++
          ['\n'].intercalate chunk.oldLines)

def locate (lines : List Text) (path : Text) :
    (lineIndex : ℕ) → List UpdateFileChunk → Except Text (List Site)
  | _, [] => .ok []
  | lineIndex, chunk :: chunks => do
    let next ← searchFrom lines path lineIndex chunk.changeContext
    let (site, next) ← place lines path chunk next
    (locate lines path next chunks).map (site :: ·)

variable (lines : List Text) (path : Text) (lineIndex : ℕ)

theorem collectReplacements_cons (chunk : UpdateFileChunk) (chunks : List UpdateFileChunk) :
    collectReplacements lines path lineIndex (chunk :: chunks) = (do
      let next ← searchFrom lines path lineIndex chunk.changeContext
      let (site, next) ← place lines path chunk next
      (collectReplacements lines path next chunks).map (site.replacements ++ ·)) := by
  -- one chunk, searched from a given line
  have hplace : ∀ next : ℕ, (place lines path chunk next >>= fun x =>
      (collectReplacements lines path x.2 chunks).map (x.1.replacements ++ ·)) =
        collectReplacements lines path next ({ chunk with changeContext := none } :: chunks) := by
    intro next
    rw [collectReplacements]
    simp only [ok_bind]
    unfold place
    by_cases hold : chunk.oldLines = []
    · simp [if_pos hold, ok_bind, Site.replacements]
      rcases collectReplacements lines path next chunks with error | rest
      · rfl
      · rfl
    · simp only [if_neg hold]
      rcases hseek : seekSequence lines chunk.oldLines next chunk.isEndOfFile with - | start
      · by_cases hlast : chunk.oldLines.getLast? = some []
        -- the search without the trailing empty line
        · simp [hlast]
          rcases hretry : seekSequence lines chunk.oldLines.dropLast next chunk.isEndOfFile
            with - | start
          · rfl
          simp [ok_bind, Site.replacements, if_neg hold]
          all_goals rfl
        · have hretry : (chunk.oldLines.getLast? == some []) = false := by simpa using hlast
          simp only [if_neg hlast, hretry, Bool.and_false, Bool.false_eq_true, if_false]
          rfl
      · simp [ok_bind, Site.replacements, if_neg hold]
        all_goals rfl
  simp only [hplace, collectReplacements, ok_bind]
  rcases chunk.changeContext with - | ctxLine
  · rfl
  · simp [searchFrom]
    rcases hseek : seekSequence lines [ctxLine] lineIndex false with - | idx
    · rfl
    · rfl

/-- **What is collected are the replacements of the sites.** -/
theorem collectReplacements_eq (chunks : List UpdateFileChunk) :
    collectReplacements lines path lineIndex chunks =
      (locate lines path lineIndex chunks).map (·.flatMap Site.replacements) := by
  induction chunks generalizing lineIndex with
  | nil => rfl
  | cons chunk chunks ih =>
    rw [collectReplacements_cons, locate]
    rcases searchFrom lines path lineIndex chunk.changeContext with error | next
    · rfl
    simp [ok_bind]
    rcases place lines path chunk next with error | ⟨site, next⟩
    · rfl
    · simp [ok_bind, ih]
      rcases locate lines path next chunks with error | sites
      · rfl
      · rfl

/-! ### The order of the sites -/

namespace Site

/-- The line behind the lines of a site. -/
def finish (site : Site) : ℕ := site.start + site.pattern.length

/-- The lines of a site stand where it says; without lines it is at the end of the file. -/
structure Fits (site : Site) (lines : List Text) : Prop where
  stands : StandsAt lines site.pattern site.start
  atEnd : site.chunk.oldLines = [] → site.start = lines.length
  endsEmpty : site.retried → site.chunk.oldLines.getLast? = some []

theorem pattern_of_nil {site : Site} (h : site.chunk.oldLines = []) : site.pattern = [] := by
  unfold pattern
  split
  · rw [h, dropLast_nil]
  · exact h

theorem replacements_stretches {site : Site} {changes : List Change}
    (h : site.chunk.HasChanges changes) :
    Stretches site.start site.finish site.replacements := by
  unfold replacements
  split
  · exact stretches_singleton le_rfl (Nat.le_add_right _ _)
  · have hincreasing := increasing_contextIndices changes 0 0
    rw [← h.contextLineIndices] at hincreasing
    exact chunkReplacements_stretches hincreasing (Nat.zero_le _)

end Site

variable {lines : List Text} {path : Text}

theorem searchFrom_ok {lineIndex next : ℕ} {changeContext : Option Text}
    (hle : lineIndex ≤ lines.length)
    (h : searchFrom lines path lineIndex changeContext = .ok next) :
    lineIndex ≤ next ∧ next ≤ lines.length := by
  rcases changeContext with - | ctxLine
  · cases h
    exact ⟨le_rfl, hle⟩
  rw [searchFrom] at h
  rcases hseek : seekSequence lines [ctxLine] lineIndex false with - | idx
  · rw [hseek] at h
    cases h
  · rw [hseek] at h
    cases h
    obtain ⟨hidx, hstands⟩ := seekSequence_spec hle hseek
    exact ⟨Nat.le_succ_of_le hidx, hstands.within⟩

/-- What the next chunk may use of the file after a site. -/
structure Follows (lines : List Text) (lineIndex : ℕ) (site : Site) (next : ℕ) : Prop where
  fits : site.Fits lines
  fromIndex : lineIndex ≤ site.start
  grows : lineIndex ≤ next
  within : next ≤ lines.length
  behind : site.chunk.oldLines = [] ∨ next = site.finish

theorem place_ok {chunk : UpdateFileChunk} {lineIndex next : ℕ} {site : Site}
    (hle : lineIndex ≤ lines.length) (h : place lines path chunk lineIndex = .ok (site, next)) :
    site.chunk = chunk ∧ Follows lines lineIndex site next := by
  -- a site whose lines were found behind `lineIndex`
  have hfound : ∀ {site : Site}, site.chunk = chunk → chunk.oldLines ≠ [] →
      (site.retried → chunk.oldLines.getLast? = some []) →
      lineIndex ≤ site.start ∧ StandsAt lines site.pattern site.start →
        Follows lines lineIndex site site.finish := by
    intro site hchunk hold hempty hstands
    refine ⟨⟨hstands.2, fun hnil => absurd (hchunk ▸ hnil) hold, hchunk ▸ hempty⟩, hstands.1, ?_,
      hstands.2.within, .inr rfl⟩
    exact hstands.1.trans (Nat.le_add_right _ _)
  unfold place at h
  by_cases hold : chunk.oldLines = []
  · rw [if_pos hold] at h
    cases h
    have hpattern : Site.pattern ⟨chunk, lines.length, false⟩ = [] := Site.pattern_of_nil hold
    refine ⟨rfl, ⟨⟨?_, fun _ => rfl, nofun⟩, hle, le_rfl, hle, .inl hold⟩⟩
    rw [hpattern]
    exact ⟨le_rfl, id, by simp, by simp [matchesAt]⟩
  · rw [if_neg hold] at h
    rcases hseek : seekSequence lines chunk.oldLines lineIndex chunk.isEndOfFile with - | start
    · rw [hseek] at h
      by_cases hlast : chunk.oldLines.getLast? = some []
      · rw [if_pos hlast] at h
        rcases hretry : seekSequence lines chunk.oldLines.dropLast lineIndex chunk.isEndOfFile
          with - | start
        · rw [hretry] at h
          cases h
        · rw [hretry] at h
          cases h
          exact ⟨rfl, hfound rfl hold (fun _ => hlast) (seekSequence_spec hle hretry)⟩
      · rw [if_neg hlast] at h
        cases h
    · rw [hseek] at h
      cases h
      exact ⟨rfl, hfound rfl hold nofun (seekSequence_spec hle hseek)⟩

/-- A site ends before the next one, or it is at the end of the file. -/
def Site.Before (site site' : Site) : Prop :=
  site.chunk.oldLines = [] ∨ site.finish ≤ site'.start

/-- **Sites fit the file and stand in order.** -/
theorem locate_ok {lineIndex : ℕ} {chunks : List UpdateFileChunk} {sites : List Site}
    (hle : lineIndex ≤ lines.length) (h : locate lines path lineIndex chunks = .ok sites) :
    sites.map (·.chunk) = chunks ∧ (∀ site ∈ sites, lineIndex ≤ site.start ∧ site.Fits lines) ∧
      sites.Pairwise Site.Before := by
  induction chunks generalizing lineIndex sites with
  | nil =>
    cases h
    exact ⟨rfl, nofun, List.Pairwise.nil⟩
  | cons _ _ ih =>
    obtain ⟨next, hnext, h⟩ := bind_eq_ok.mp h
    obtain ⟨⟨site, next'⟩, hplace, h⟩ := bind_eq_ok.mp h
    obtain ⟨rest, hrest, rfl⟩ := map_eq_ok.mp h
    obtain ⟨hgrows, hnextle⟩ := searchFrom_ok hle hnext
    obtain ⟨hchunk, hfollows⟩ := place_ok hnextle hplace
    obtain ⟨hchunks, hsites, hbefore⟩ := ih hfollows.within hrest
    refine ⟨?_, ?_, pairwise_cons.mpr ⟨fun site' hmem => ?_, hbefore⟩⟩
    · rw [map_cons, hchunk, hchunks]
    · intro site' hmem
      rcases mem_cons.mp hmem with rfl | hmem
      · exact ⟨hgrows.trans hfollows.fromIndex, hfollows.fits⟩
      · obtain ⟨hstart, hfits⟩ := hsites site' hmem
        exact ⟨hgrows.trans (hfollows.grows.trans hstart), hfits⟩
    · rcases hfollows.behind with hold | hbehind
      · exact .inl hold
      · exact .inr (hbehind ▸ (hsites site' hmem).1)

/-! ### Sorting -/

/-- Replacements of which only those at the end of the file may stand before others. -/
structure Arranged (last : ℕ) (replacements : List Replacement) : Prop where
  inside : ∀ r ∈ replacements, r.start + r.oldLen ≤ last
  order : replacements.Pairwise fun r r' => r.start = last ∨ r.start + r.oldLen ≤ r'.start

theorem arranged_sites {sites : List Site}
    (hchanges : ∀ site ∈ sites, ∃ changes, site.chunk.HasChanges changes)
    (hfits : ∀ site ∈ sites, site.Fits lines) (hbefore : sites.Pairwise Site.Before) :
    Arranged lines.length (sites.flatMap Site.replacements) := by
  have hstretches : ∀ site ∈ sites, Stretches site.start site.finish site.replacements := by
    intro site hmem
    obtain ⟨changes, h⟩ := hchanges site hmem
    exact Site.replacements_stretches h
  refine ⟨?_, pairwise_flatMap.mpr ⟨?_, ?_⟩⟩
  · intro r hr
    obtain ⟨site, hmem, hr⟩ := mem_flatMap.mp hr
    exact ((hstretches site hmem).inside r hr).2.trans (hfits site hmem).stands.within
  · intro site hmem
    exact (hstretches site hmem).apart.imp fun h => .inr h
  · refine hbefore.imp_of_mem fun {site site'} hmem hmem' hbefore r hr r' hr' => ?_
    obtain ⟨hfirst, hlast⟩ := (hstretches site hmem).inside r hr
    rcases hbefore with hold | hbefore
    · rw [(hfits site hmem).atEnd hold] at hfirst
      have hin := hlast.trans (hfits site hmem).stands.within
      exact .inl (by omega)
    · exact .inr (hlast.trans (hbefore.trans ((hstretches site' hmem').inside r' hr').1))

theorem stretches_orderedInsert {last : ℕ} {r : Replacement} {sorted : List Replacement}
    (hr : r.start + r.oldLen ≤ last) (h : Stretches 0 last sorted)
    (horder : ∀ r' ∈ sorted, r.start = last ∨ r.start + r.oldLen ≤ r'.start) :
    Stretches 0 last (sorted.orderedInsert (fun r r' => r.start ≤ r'.start) r) := by
  refine ⟨fun r' hmem => ⟨Nat.zero_le _, ?_⟩, ?_⟩
  · rcases (mem_orderedInsert _).mp hmem with rfl | hmem
    · exact hr
    · exact (h.inside r' hmem).2
  · induction sorted with
    | nil => exact pairwise_singleton _ _
    | cons b _ ih =>
      obtain ⟨hb, hsorted⟩ := pairwise_cons.mp h.apart
      have hbin := (h.inside b mem_cons_self).2
      rw [orderedInsert_cons]
      split
      · next hle =>
        refine pairwise_cons.mpr ⟨fun r' hmem => ?_, h.apart⟩
        have hstart : b.start ≤ r'.start := by
          rcases mem_cons.mp hmem with rfl | hmem
          · exact le_rfl
          · exact (Nat.le_add_right _ _).trans (hb r' hmem)
        rcases horder r' hmem with hend | hbefore
        · omega
        · exact hbefore
      · next hlt =>
        have hbr : b.start + b.oldLen ≤ r.start := by
          rcases horder b mem_cons_self with hend | hbefore <;> omega
        refine pairwise_cons.mpr ⟨fun r' hmem => ?_, ?_⟩
        · rcases (mem_orderedInsert _).mp hmem with rfl | hmem
          · exact hbr
          · exact hb r' hmem
        · refine ih ⟨fun r' hmem => h.inside r' (mem_cons_of_mem _ hmem), hsorted⟩
            fun r' hmem => horder r' (mem_cons_of_mem _ hmem)

/-- Sorting by start puts arranged replacements one behind the other. -/
theorem Arranged.stretches_insertionSort {last : ℕ} {replacements : List Replacement}
    (h : Arranged last replacements) :
    Stretches 0 last (replacements.insertionSort fun r r' => r.start ≤ r'.start) := by
  induction replacements with
  | nil => exact stretches_nil _ _
  | cons r replacements ih =>
    obtain ⟨hr, horder⟩ := pairwise_cons.mp h.order
    have hrest : Arranged last replacements :=
      ⟨fun r' hmem => h.inside r' (mem_cons_of_mem _ hmem), horder⟩
    refine stretches_orderedInsert (h.inside r mem_cons_self) (ih hrest) fun r' hmem => ?_
    exact hr r' ((mem_insertionSort _).mp hmem)

end Patch

end CodexPlus
