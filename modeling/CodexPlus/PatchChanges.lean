/-
CodexPlus/PatchChanges.lean

The chunks that the patch parser produces.

Every line of an update hunk pushes one context, added or removed line to the last
chunk, so a chunk of a parsed patch is the two sides and the context positions of a list
of changes (`parsePatch_hasChanges`).  Context positions grow on both sides.
-/
import CodexPlus.PatchRoundTrip

namespace CodexPlus

open List

namespace Patch

/-! ### One more line -/

theorem UpdateFileChunk.HasChanges.push {chunk : UpdateFileChunk} {changes : List Change}
    (h : chunk.HasChanges changes) (kind : ChangeKind) (text : Text) :
    (kind.push text chunk).HasChanges (changes ++ [⟨kind, text⟩]) := by
  have hpush : kind.push text chunk = [Change.mk kind text].foldl
      (fun chunk change => change.kind.push change.text chunk) chunk := rfl
  rw [hpush, pushAll_eq]
  refine ⟨?_, ?_, ?_⟩
  · rw [Change.oldSide_append, ← h.oldLines]
  · rw [Change.newSide_append, ← h.newLines]
  · rw [Change.contextIndices_append, ← h.contextLineIndices, ← h.oldLines, ← h.newLines,
      Nat.zero_add, Nat.zero_add]

/-- Every chunk of a hunk is made of changes. -/
def Hunk.HasChanges : Hunk → Prop
  | .updateFile _ _ chunks => ∀ chunk ∈ chunks, ∃ changes, chunk.HasChanges changes
  | _ => True

theorem hasChanges_modifyLast {chunks : List UpdateFileChunk}
    {f : UpdateFileChunk → UpdateFileChunk} (h : ∀ chunk ∈ chunks, ∃ changes, chunk.HasChanges changes)
    (hf : ∀ chunk changes, UpdateFileChunk.HasChanges chunk changes →
      ∃ changes, (f chunk).HasChanges changes) :
    ∀ chunk ∈ chunks.modifyLast f, ∃ changes, chunk.HasChanges changes := by
  rcases eq_nil_or_concat' chunks with rfl | ⟨init, last, rfl⟩
  · exact h
  rw [modifyLast_concat]
  intro chunk hmem
  rcases mem_append.mp hmem with hmem | hmem
  · exact h chunk (mem_append_left _ hmem)
  · obtain ⟨changes, hlast⟩ := h last (by simp)
    rw [mem_singleton.mp hmem]
    exact hf last changes hlast

theorem UpdateFileChunk.hasChanges_default (changeContext : Option Text) :
    HasChanges { UpdateFileChunk.default with changeContext } [] :=
  ⟨rfl, rfl, rfl⟩

namespace StreamingPatchParser

variable {p p' : StreamingPatchParser} {line : Text}

theorem UpdateStep.hasChanges {movePath movePath' : Option Text}
    {chunks chunks' : List UpdateFileChunk} (hstep : UpdateStep line movePath chunks movePath' chunks')
    (h : ∀ chunk ∈ chunks, ∃ changes, chunk.HasChanges changes) :
    ∀ chunk ∈ chunks', ∃ changes, chunk.HasChanges changes := by
  cases hstep with
  | afterEof | move => exact h
  | openChunk changeContext =>
    intro chunk hmem
    rcases mem_append.mp hmem with hmem | hmem
    · exact h chunk hmem
    · rw [mem_singleton.mp hmem]
      exact ⟨[], UpdateFileChunk.hasChanges_default changeContext⟩
  | endOfFile =>
    exact hasChanges_modifyLast h fun chunk changes hchunk =>
      ⟨changes, hchunk.oldLines, hchunk.newLines, hchunk.contextLineIndices⟩
  | @change _ _ kind text =>
    unfold onLastChunk
    split
    · intro chunk hmem
      rw [mem_singleton.mp hmem]
      exact ⟨_, (UpdateFileChunk.hasChanges_default none).push kind text⟩
    · exact hasChanges_modifyLast h fun chunk changes hchunk => ⟨_, hchunk.push kind text⟩

theorem LineStep.hasChanges (hstep : LineStep p line p') (h : ∀ hunk ∈ p.hunks, hunk.HasChanges) :
    ∀ hunk ∈ p'.hunks, hunk.HasChanges := by
  have hconcat : ∀ {init : List Hunk} {hunk : Hunk}, (∀ hunk ∈ init, hunk.HasChanges) →
      hunk.HasChanges → ∀ hunk' ∈ init ++ [hunk], hunk'.HasChanges := by
    intro init hunk hinit hhunk hunk' hmem
    rcases mem_append.mp hmem with hmem | hmem
    · exact hinit hunk' hmem
    · rw [mem_singleton.mp hmem]
      exact hhunk
  cases hstep with
  | beginPatch | environment | endPatch | blank => exact h
  | header _ hheader _ =>
    refine hconcat h ?_
    cases hheader with
    | addFile | deleteFile => trivial
    | updateFile => exact fun _ hmem => absurd hmem not_mem_nil
  | addLine _ _ hhunks =>
    rw [hhunks] at h
    exact hconcat (fun hunk hmem => h hunk (mem_append_left _ hmem)) trivial
  | updateLine _ hhunks hupdate =>
    rw [hhunks] at h
    refine hconcat (fun hunk hmem => h hunk (mem_append_left _ hmem)) ?_
    exact hupdate.hasChanges (h _ (mem_append_right _ mem_cons_self))

end StreamingPatchParser

/-- **The chunks of a parsed patch are made of changes.** -/
theorem parsePatch_hasChanges {patch : Text} {args : ApplyPatchArgs} (h : parsePatch patch = .ok args) :
    ∀ hunk ∈ args.hunks, hunk.HasChanges := by
  obtain ⟨lines, -, h⟩ := bind_eq_ok.mp h
  obtain ⟨p, hpush, h⟩ := bind_eq_ok.mp h
  obtain ⟨p', hfinish, h⟩ := bind_eq_ok.mp h
  cases h
  refine StreamingPatchParser.hunks_of_run (R := fun hunks hunks' =>
    (∀ hunk ∈ hunks, hunk.HasChanges) → ∀ hunk ∈ hunks', hunk.HasChanges) (fun _ => id)
    (fun h h' => h' ∘ h) (fun h => (StreamingPatchParser.processLine_step h).hasChanges) hpush hfinish ?_
  exact fun _ hmem => absurd hmem not_mem_nil

end Patch

end CodexPlus
