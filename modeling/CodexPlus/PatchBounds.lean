/-
CodexPlus/PatchBounds.lean

The replacements of a patch stay within the file.

The functions that compute replacements are given once more with every slice, index and
subtraction checked, `none` for the panic or the wrap of one that is out of range.  For
the chunks of a parsed patch the checks never fail, and the replacements are sorted,
inside the file and apart.
-/
import CodexPlus.PatchSites

namespace CodexPlus

open List

namespace Patch

/-! ### Checked slices -/

/-- `l[first..last]` -/
def slice? {α : Type} (l : List α) (first last : ℕ) : Option (List α) :=
  if first ≤ last ∧ last ≤ l.length then some ((l.drop first).take (last - first)) else none

/-- A subtraction of unsigned numbers. -/
def sub? (m n : ℕ) : Option ℕ := if n ≤ m then some (m - n) else none

variable {α : Type} {first last : ℕ}

theorem slice?_eq {l : List α} (h : first ≤ last)
    (hlast : last ≤ l.length) : slice? l first last = some ((l.drop first).take (last - first)) :=
  if_pos ⟨h, hlast⟩

theorem sub?_eq {m n : ℕ} (h : n ≤ m) : sub? m n = some (m - n) := if_pos h

def matchesAtChecked (view : Text → Text) (lines pattern : List Text) (i : ℕ) : Option Bool :=
  (slice? lines i (i + pattern.length)).map fun part => part.map view == pattern.map view

/-- A loop that returns the first index with the property. -/
def findChecked (p : ℕ → Option Bool) : List ℕ → Option (Option ℕ)
  | [] => some none
  | i :: rest => (p i).bind fun found => if found then some (some i) else findChecked p rest

/-- The passes of `seek_sequence`, from strict to lenient. -/
def seekPassesChecked (lines pattern : List Text) (searchStart : ℕ) :
    List (Text → Text) → Option (Option ℕ)
  | [] => some none
  | view :: views =>
    (findChecked (matchesAtChecked view lines pattern)
      (List.range' searchStart (lines.length - pattern.length + 1 - searchStart))).bind fun
        | some i => some (some i)
        | none => seekPassesChecked lines pattern searchStart views

def seekSequenceChecked (lines pattern : List Text) (start : ℕ) (eof : Bool) : Option (Option ℕ) :=
  if pattern = [] then some (some start)
  else if pattern.length > lines.length then some none
  else
    (if eof then (sub? lines.length pattern.length).map (max · start) else some start).bind
      fun searchStart => seekPassesChecked lines pattern searchStart [id, trimEnd, trim, normalise]

def chunkReplacementsChecked (startIdx : ℕ) (pattern newSlice : List Text) :
    (oldStart newStart : ℕ) → (contextLineIndices : List (ℕ × ℕ)) → Option (List Replacement)
  | oldStart, newStart, (oldContext, newContext) :: indices =>
    if oldContext ≥ pattern.length ∨ newContext ≥ newSlice.length then finish oldStart newStart
    else
      (if oldStart ≠ oldContext ∨ newStart ≠ newContext then
        (sub? oldContext oldStart).bind fun oldLen =>
          (slice? newSlice newStart newContext).map fun segment =>
            [⟨startIdx + oldStart, oldLen, segment⟩]
      else some []).bind fun here =>
        (chunkReplacementsChecked startIdx pattern newSlice (oldContext + 1) (newContext + 1)
          indices).map (here ++ ·)
  | oldStart, newStart, [] => finish oldStart newStart
where
  finish (oldStart newStart : ℕ) : Option (List Replacement) :=
    if oldStart ≠ pattern.length ∨ newStart ≠ newSlice.length then
      (sub? pattern.length oldStart).bind fun oldLen =>
        (slice? newSlice newStart newSlice.length).map fun segment =>
          [⟨startIdx + oldStart, oldLen, segment⟩]
    else some []

def searchFromChecked (lines : List Text) (path : Text) (lineIndex : ℕ) :
    Option Text → ExceptT Text Option ℕ
  | none => pure lineIndex
  | some ctxLine => do
    match ← ExceptT.lift (seekSequenceChecked lines [ctxLine] lineIndex false) with
    | some idx => pure (idx + 1)
    | none => throw ("Failed to find context '".toList ++ ctxLine ++ "' in ".toList ++ path)

/-- The start of a chunk's lines, with the lines that were found and those that replace them. -/
def findLinesChecked (lines : List Text) (path : Text) (chunk : UpdateFileChunk) (lineIndex : ℕ) :
    ExceptT Text Option (ℕ × List Text × List Text) := do
  match ← ExceptT.lift (seekSequenceChecked lines chunk.oldLines lineIndex chunk.isEndOfFile) with
  | some start => pure (start, chunk.oldLines, chunk.newLines)
  | none =>
    if chunk.oldLines.getLast? = some [] then
      let pattern ← ExceptT.lift (butLast chunk.oldLines)
      let newSlice ← ExceptT.lift
        (if chunk.newLines.getLast? = some [] then butLast chunk.newLines else some chunk.newLines)
      match ← ExceptT.lift (seekSequenceChecked lines pattern lineIndex chunk.isEndOfFile) with
      | some start => pure (start, pattern, newSlice)
      | none => throw missing
    else throw missing
where
  /-- `lines[..lines.len() - 1]` -/
  butLast (lines : List Text) : Option (List Text) :=
    (sub? lines.length 1).bind (slice? lines 0)
  missing : Text :=
    "Failed to find expected lines in ".toList ++ path ++ ":\n".toList ++
      ['\n'].intercalate chunk.oldLines

/-- The loop of `compute_replacements`. -/
def collectReplacementsChecked (lines : List Text) (path : Text) :
    (lineIndex : ℕ) → List UpdateFileChunk → ExceptT Text Option (List Replacement)
  | _, [] => pure []
  | lineIndex, chunk :: chunks => do
    let lineIndex ← searchFromChecked lines path lineIndex chunk.changeContext
    if chunk.oldLines = [] then
      let rest ← collectReplacementsChecked lines path lineIndex chunks
      pure (⟨lines.length, 0, chunk.newLines⟩ :: rest)
    else
      let (start, pattern, newSlice) ← findLinesChecked lines path chunk lineIndex
      let here ← ExceptT.lift
        (chunkReplacementsChecked start pattern newSlice 0 0 chunk.contextLineIndices)
      let rest ← collectReplacementsChecked lines path (start + pattern.length) chunks
      pure (here ++ rest)

def computeReplacementsChecked (lines : List Text) (path : Text) (chunks : List UpdateFileChunk) :
    ExceptT Text Option (List Replacement) := do
  let replacements ← collectReplacementsChecked lines path 0 chunks
  pure (replacements.insertionSort fun r r' => r.start ≤ r'.start)

/-- The loop of `apply_replacements`. -/
def replaceLinesChecked (preferredEnding : LineEnding) :
    (sourceIndex : ℕ) → (source : List SourceLine) → List Replacement → Option (List SourceLine)
  | _, source, [] => some source
  | sourceIndex, source, r :: replacements => do
    let kept ← sub? r.start sourceIndex
    let rest ← replaceLinesChecked preferredEnding (r.start + r.oldLen)
      (source.drop (kept + r.oldLen)) replacements
    pure (source.take kept ++ r.newSegment.map (⟨·, some preferredEnding⟩) ++ rest)

/-! ### Finding lines -/

theorem findChecked_eq {p : ℕ → Option Bool} {q : ℕ → Bool} {is : List ℕ}
    (h : ∀ i ∈ is, p i = some (q i)) : findChecked p is = some (is.find? q) := by
  induction is with
  | nil => rfl
  | cons i _ ih =>
    rw [findChecked, h i mem_cons_self]
    rcases hq : q i with - | -
    · rw [find?_cons_of_neg (by simp [hq])]
      exact ih fun j hj => h j (mem_cons_of_mem _ hj)
    · rw [find?_cons_of_pos hq]
      rfl

variable {lines pattern : List Text}

theorem matchesAtChecked_eq {view : Text → Text} {i : ℕ} (h : i + pattern.length ≤ lines.length) :
    matchesAtChecked view lines pattern i = some (matchesAt view lines pattern i) := by
  rw [matchesAtChecked, slice?_eq (Nat.le_add_right _ _) h, Nat.add_sub_cancel_left]
  rfl

theorem seekPassesChecked_eq (h : pattern.length ≤ lines.length)
    (searchStart : ℕ) (views : List (Text → Text)) :
    seekPassesChecked lines pattern searchStart views =
      some (views.foldr (fun view found => (seekWith view lines pattern searchStart).or found)
        none) := by
  induction views with
  | nil => rfl
  | cons view _ ih =>
    have hfind : findChecked (matchesAtChecked view lines pattern)
        (List.range' searchStart (lines.length - pattern.length + 1 - searchStart)) =
          some (seekWith view lines pattern searchStart) := by
      refine findChecked_eq fun i hi => matchesAtChecked_eq ?_
      obtain ⟨hge, hlt⟩ := mem_range'_1.mp hi
      omega
    rw [seekPassesChecked, hfind, foldr_cons]
    rcases seekWith view lines pattern searchStart with - | i
    · exact ih
    · rfl

theorem seekSequenceChecked_eq (lines pattern : List Text) (start : ℕ) (eof : Bool) :
    seekSequenceChecked lines pattern start eof = some (seekSequence lines pattern start eof) := by
  unfold seekSequenceChecked seekSequence
  split
  · rfl
  split
  · rfl
  · next hlong =>
    have hle : pattern.length ≤ lines.length := Nat.le_of_not_lt hlong
    have hstart : (if eof then (sub? lines.length pattern.length).map (max · start)
        else some start) =
          some (if eof then max (lines.length - pattern.length) start else start) := by
      rw [sub?_eq hle]
      cases eof <;> rfl
    rw [hstart, Option.bind_some, seekPassesChecked_eq hle]
    simp

/-! ### The stretches of a chunk -/

section Stretches

variable {startIdx oldStart newStart : ℕ} {pattern newSlice : List Text} {indices : List (ℕ × ℕ)}

theorem finishChecked_eq (hold : oldStart ≤ pattern.length) (hnew : newStart ≤ newSlice.length) :
    chunkReplacementsChecked.finish startIdx pattern newSlice oldStart newStart =
      some (chunkReplacements.finish startIdx pattern newSlice oldStart newStart) := by
  unfold chunkReplacementsChecked.finish chunkReplacements.finish
  split
  · rw [sub?_eq hold, slice?_eq hnew le_rfl, take_of_length_le (by simp)]
    rfl
  · rfl

theorem chunkReplacementsChecked_eq (h : Increasing oldStart newStart indices)
    (hold : oldStart ≤ pattern.length) (hnew : newStart ≤ newSlice.length) :
    chunkReplacementsChecked startIdx pattern newSlice oldStart newStart indices =
      some (chunkReplacements startIdx pattern newSlice oldStart newStart indices) := by
  induction indices generalizing oldStart newStart with
  | nil =>
    exact finishChecked_eq hold hnew
  | cons _ _ ih =>
    obtain ⟨hold', hnew', hrest⟩ := h
    rw [chunkReplacementsChecked, chunkReplacements]
    split
    · exact finishChecked_eq hold hnew
    · next hin =>
      rw [not_or, not_le, not_le] at hin
      rw [ih hrest hin.1 hin.2]
      split
      · rw [sub?_eq hold', slice?_eq hnew' hin.2.le]
        rfl
      · rfl

end Stretches

/-! ### The loop over the chunks -/

variable {β ε : Type}

theorem run_bind {x : ExceptT ε Option α} {e : Except ε α}
    {f : α → ExceptT ε Option β} {g : α → Except ε β} (hx : x.run = some e)
    (hf : ∀ a, e = .ok a → (f a).run = some (g a)) : (x >>= f).run = some (e >>= g) := by
  rw [ExceptT.run_bind, hx]
  rcases e with error | a
  · rfl
  · exact hf a rfl

variable (f : α → ExceptT ε Option β)

theorem run_bind_ok {x : ExceptT ε Option α} {a : α}
    (hx : x.run = some (.ok a)) : (x >>= f).run = (f a).run := by
  rw [ExceptT.run_bind, hx]
  rfl

theorem run_map {x : ExceptT ε Option α} {e : Except ε α} (f : α → β)
    (hx : x.run = some e) : (x >>= fun a => pure (f a)).run = some (e.map f) := by
  rw [ExceptT.run_bind, hx]
  rcases e with error | a
  · rfl
  · rfl

theorem run_lift_bind {x : Option α} {a : α}
    (hx : x = some a) : (ExceptT.lift x >>= f).run = (f a).run := by
  rw [hx]
  rfl

variable {lines : List Text} {path : Text} (lineIndex : ℕ)

theorem searchFromChecked_run (changeContext : Option Text) :
    (searchFromChecked lines path lineIndex changeContext).run =
      some (searchFrom lines path lineIndex changeContext) := by
  rcases changeContext with - | ctxLine
  · rfl
  · rw [searchFromChecked, run_lift_bind _ (seekSequenceChecked_eq _ _ _ _), searchFrom]
    rcases seekSequence lines [ctxLine] lineIndex false with - | idx
    · rfl
    · rfl

theorem butLast_eq {l : List Text} (h : l.getLast? = some []) :
    findLinesChecked.butLast l = some l.dropLast := by
  have hne : l ≠ [] := by
    rintro rfl
    cases h
  have hpos : 1 ≤ l.length := length_pos_of_ne_nil hne
  rw [findLinesChecked.butLast, sub?_eq hpos, Option.bind_some,
    slice?_eq (Nat.zero_le _) (Nat.sub_le _ _), drop_zero, Nat.sub_zero,
    dropLast_eq_take]

variable {chunk : UpdateFileChunk}

theorem findLinesChecked_run (hold : chunk.oldLines ≠ []) :
    (findLinesChecked lines path chunk lineIndex).run =
      some ((place lines path chunk lineIndex).map fun (site, _) =>
        (site.start, site.pattern, site.newSlice)) := by
  rw [findLinesChecked, run_lift_bind _ (seekSequenceChecked_eq _ _ _ _), place, if_neg hold]
  rcases seekSequence lines chunk.oldLines lineIndex chunk.isEndOfFile with - | start
  · by_cases hlast : chunk.oldLines.getLast? = some []
    · have hnew : (if chunk.newLines.getLast? = some [] then
          findLinesChecked.butLast chunk.newLines else some chunk.newLines) =
            some (dropTrailingEmpty chunk.newLines) := by
        unfold dropTrailingEmpty
        split
        · next hempty => exact butLast_eq hempty
        · rfl
      simp only [if_pos hlast]
      rw [run_lift_bind _ (butLast_eq hlast), run_lift_bind _ hnew,
        run_lift_bind _ (seekSequenceChecked_eq _ _ _ _)]
      rcases seekSequence lines chunk.oldLines.dropLast lineIndex chunk.isEndOfFile with - | start
      · rfl
      · rfl
    · simp only [if_neg hlast]
      rfl
  · rfl

theorem place_next {lineIndex next : ℕ} {site : Site}
    (h : place lines path chunk lineIndex = .ok (site, next)) (hold : chunk.oldLines ≠ []) :
    site.chunk = chunk ∧ next = site.start + site.pattern.length := by
  rw [place, if_neg hold] at h
  split at h
  · cases h
    exact ⟨rfl, rfl⟩
  · split at h
    · cases h
      exact ⟨rfl, rfl⟩
    · cases h

theorem collectReplacementsChecked_run {chunks : List UpdateFileChunk}
    (hchanges : ∀ chunk ∈ chunks, ∃ changes, chunk.HasChanges changes) :
    (collectReplacementsChecked lines path lineIndex chunks).run =
      some (collectReplacements lines path lineIndex chunks) := by
  induction chunks generalizing lineIndex with
  | nil => rfl
  | cons chunk chunks ih =>
    have hrest : ∀ next, (collectReplacementsChecked lines path next chunks).run =
        some (collectReplacements lines path next chunks) := fun next =>
      ih next fun chunk hmem => hchanges chunk (mem_cons_of_mem _ hmem)
    rw [collectReplacements_cons]
    refine run_bind (searchFromChecked_run lineIndex chunk.changeContext) fun next _ => ?_
    by_cases hold : chunk.oldLines = []
    · have hsite : Site.replacements ⟨chunk, lines.length, false⟩ =
          [⟨lines.length, 0, chunk.newLines⟩] := if_pos hold
      rw [if_pos hold, place, if_pos hold, run_map _ (hrest next), ok_bind]
      simp only [hsite]
      rfl
    · rw [if_neg hold]
      rcases hplace : place lines path chunk next with error | ⟨site, next'⟩
      · rw [ExceptT.run_bind, findLinesChecked_run next hold, hplace]
        rfl
      obtain ⟨hchunk, rfl⟩ := place_next hplace hold
      obtain ⟨changes, hhas⟩ := hchanges chunk mem_cons_self
      have hincreasing := increasing_contextIndices changes 0 0
      rw [← hhas.contextLineIndices] at hincreasing
      have hhere : chunkReplacementsChecked site.start site.pattern site.newSlice 0 0
          chunk.contextLineIndices = some site.replacements := by
        rw [chunkReplacementsChecked_eq hincreasing (Nat.zero_le _) (Nat.zero_le _),
          Site.replacements, hchunk, if_neg hold]
      have hfind : (findLinesChecked lines path chunk next).run =
          some (.ok (site.start, site.pattern, site.newSlice)) := by
        rw [findLinesChecked_run next hold, hplace]
        rfl
      rw [run_bind_ok _ hfind, run_lift_bind _ hhere, run_map _ (hrest _)]
      rfl

/-- The loop of `apply_replacements` on replacements one behind the other. -/
theorem replaceLinesChecked_eq {sourceIndex : ℕ} {replacements : List Replacement}
    (h : Stretches first last replacements) (hindex : sourceIndex ≤ first)
    (preferredEnding : LineEnding) (source : List SourceLine) :
    replaceLinesChecked preferredEnding sourceIndex source replacements =
      some (replaceLines preferredEnding sourceIndex source replacements) := by
  induction replacements generalizing first sourceIndex source with
  | nil => rfl
  | cons r replacements ih =>
    obtain ⟨happart, hrest⟩ := pairwise_cons.mp h.apart
    have hstart : sourceIndex ≤ r.start := hindex.trans (h.inside r mem_cons_self).1
    have hlater : Stretches (r.start + r.oldLen) last replacements :=
      ⟨fun r' hmem => ⟨happart r' hmem, (h.inside r' (mem_cons_of_mem _ hmem)).2⟩, hrest⟩
    rw [replaceLinesChecked, sub?_eq hstart]
    simp only [Option.bind_eq_bind, Option.bind_some, ih hlater le_rfl]
    rfl

/-- **Replacement lists are well formed.**  For the chunks of a parsed patch no slice, index or
subtraction on the way is out of range, and replacements that are computed are sorted, inside the
file and apart, so that rebuilding the file never subtracts below zero. -/
theorem computeReplacements_wellFormed {patch path : Text} {movePath : Option Text}
    {chunks : List UpdateFileChunk} {args : ApplyPatchArgs} (hparse : parsePatch patch = .ok args)
    (hunk : .updateFile path movePath chunks ∈ args.hunks) (lines : List Text) (name : Text) :
    (computeReplacementsChecked lines name chunks).run =
        some (computeReplacements lines name chunks) ∧
      ∀ replacements, computeReplacements lines name chunks = .ok replacements →
        (replacements.Pairwise fun r r' => r.start ≤ r'.start) ∧
        (∀ r ∈ replacements, r.start + r.oldLen ≤ lines.length) ∧
        (replacements.Pairwise fun r r' => r.start + r.oldLen ≤ r'.start) ∧
        ∀ (preferredEnding : LineEnding) (source : List SourceLine),
          replaceLinesChecked preferredEnding 0 source replacements =
            some (replaceLines preferredEnding 0 source replacements) := by
  have hchanges : ∀ chunk ∈ chunks, ∃ changes, chunk.HasChanges changes :=
    parsePatch_hasChanges hparse _ hunk
  refine ⟨run_map _ (collectReplacementsChecked_run 0 hchanges), fun replacements hok => ?_⟩
  obtain ⟨collected, hcollected, rfl⟩ := map_eq_ok.mp hok
  rw [collectReplacements_eq] at hcollected
  obtain ⟨sites, hlocate, rfl⟩ := map_eq_ok.mp hcollected
  obtain ⟨hsites, hfits, hbefore⟩ := locate_ok (Nat.zero_le _) hlocate
  have harranged := arranged_sites (fun site hmem =>
    hchanges _ (hsites ▸ mem_map_of_mem hmem)) (fun site hmem => (hfits site hmem).2) hbefore
  have hsorted := harranged.stretches_insertionSort
  refine ⟨?_, fun r hmem => (hsorted.inside r hmem).2, hsorted.apart,
    replaceLinesChecked_eq hsorted le_rfl⟩
  exact hsorted.apart.imp fun h => (Nat.le_add_right _ _).trans h

/-- A patch whose second chunk, an addition, goes to the end of the file. -/
def twoChunksPatch : Text :=
  "*** Begin Patch\n*** Update File: a\n@@\n-b\n+x\n@@\n+y\n*** End Patch\n".toList

def twoChunks : List UpdateFileChunk :=
  [⟨none, ["b".toList], ["x".toList], [], false⟩, ⟨none, [], ["y".toList], [], false⟩]

theorem twoChunks_wellFormed :
    ∃ args, parsePatch twoChunksPatch = .ok args ∧
      .updateFile "a".toList none twoChunks ∈ args.hunks ∧
      computeReplacements ["a".toList, "b".toList, "c".toList] "a".toList twoChunks =
        .ok [⟨1, 1, ["x".toList]⟩, ⟨3, 0, ["y".toList]⟩] ∧
      (computeReplacementsChecked ["a".toList, "b".toList, "c".toList] "a".toList twoChunks).run =
        some (computeReplacements ["a".toList, "b".toList, "c".toList] "a".toList twoChunks) := by
  have hhunks : (parsePatch twoChunksPatch).map (·.hunks) =
      .ok [.updateFile "a".toList none twoChunks] := by decide +kernel
  obtain ⟨args, hparse, hhunks⟩ := map_eq_ok.mp hhunks
  have hunk : .updateFile "a".toList none twoChunks ∈ args.hunks := hhunks ▸ mem_cons_self
  refine ⟨args, hparse, hunk, by decide, ?_⟩
  exact (computeReplacements_wellFormed hparse hunk _ _).1

end Patch

end CodexPlus
