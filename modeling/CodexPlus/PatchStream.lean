/-
CodexPlus/PatchStream.lean

Streaming a patch against parsing it whole.

The streaming parser sees the text as it is, the batch parser the lines of the
trimmed text.  Both run the same line machine.  They part in two places:
`str::lines` takes a carriage return off each line before the machine takes its
own, and `finish` trims the last line where the machine, inside an update hunk,
only trims its end.  `stream_agrees_iff` says that nothing else makes a
difference.

On the way the hunk list only grows: every intermediate list is an initial part
of the final one, except that its last hunk may still grow (`GrowsInto`).
-/
import CodexPlus.LineLog
import CodexPlus.PatchReparse

namespace CodexPlus

open List

namespace Patch

/-! ### Growing lists -/

/-- An initial part up to the last element, which may grow. -/
inductive GrowsInto {α : Type} (R : α → α → Prop) : List α → List α → Prop
  | nil (ys : List α) : GrowsInto R [] ys
  | last {x y : α} (ys : List α) (h : R x y) : GrowsInto R [x] (y :: ys)
  | cons (x : α) {xs ys : List α} (h : GrowsInto R xs ys) : GrowsInto R (x :: xs) (x :: ys)

namespace GrowsInto

variable {α : Type} {R : α → α → Prop} {x y : α} {xs ys zs : List α}

theorem append (xs ys : List α) : GrowsInto R xs (xs ++ ys) := by
  induction xs with
  | nil => exact .nil _
  | cons x _ ih => exact .cons x ih

theorem refl (xs : List α) : GrowsInto R xs xs := by
  have h := append (R := R) xs []
  rwa [append_nil] at h

theorem concat (init : List α) (h : R x y) : GrowsInto R (init ++ [x]) (init ++ [y]) := by
  induction init with
  | nil => exact .last [] h
  | cons z _ ih => exact .cons z ih

theorem trans (htrans : ∀ x y z, R x y → R y z → R x z) (h : GrowsInto R xs ys)
    (h' : GrowsInto R ys zs) : GrowsInto R xs zs := by
  induction h generalizing zs with
  | nil => exact .nil zs
  | last _ h =>
    cases h' with
    | last zs hyz => exact .last zs (htrans _ _ _ h hyz)
    | cons y _ => exact .last _ h
  | cons x h ih =>
    cases h' with
    | last zs hxz =>
      cases h
      exact .last zs hxz
    | cons x h' => exact .cons x (ih h')

end GrowsInto

structure UpdateFileChunk.Grows (chunk chunk' : UpdateFileChunk) : Prop where
  changeContext : chunk'.changeContext = chunk.changeContext
  oldLines : chunk.oldLines <+: chunk'.oldLines
  newLines : chunk.newLines <+: chunk'.newLines
  contextLineIndices : chunk.contextLineIndices <+: chunk'.contextLineIndices
  isEndOfFile : chunk.isEndOfFile = true → chunk'.isEndOfFile = true

theorem UpdateFileChunk.Grows.trans {a b c : UpdateFileChunk} (h : a.Grows b) (h' : b.Grows c) :
    a.Grows c where
  changeContext := h'.changeContext.trans h.changeContext
  oldLines := h.oldLines.trans h'.oldLines
  newLines := h.newLines.trans h'.newLines
  contextLineIndices := h.contextLineIndices.trans h'.contextLineIndices
  isEndOfFile := fun heof => h'.isEndOfFile (h.isEndOfFile heof)

/-- A hunk grows by lines at its end, by chunks, and by the move path that follows its header. -/
inductive Hunk.Grows : Hunk → Hunk → Prop
  | addFile (path : Text) {contents contents' : Text} (h : contents <+: contents') :
      Grows (.addFile path contents) (.addFile path contents')
  | deleteFile (path : Text) : Grows (.deleteFile path) (.deleteFile path)
  | updateFile (path : Text) {movePath movePath' : Option Text}
      {chunks chunks' : List UpdateFileChunk}
      (hmove : ∀ dest ∈ movePath, movePath' = some dest)
      (hchunks : GrowsInto UpdateFileChunk.Grows chunks chunks') :
      Grows (.updateFile path movePath chunks) (.updateFile path movePath' chunks')

theorem Hunk.Grows.trans {a b c : Hunk} (h : a.Grows b) (h' : b.Grows c) : a.Grows c := by
  cases h with
  | addFile path h =>
    cases h' with
    | addFile path h' => exact .addFile path (h.trans h')
  | deleteFile => exact h'
  | updateFile path hmove hchunks =>
    cases h' with
    | updateFile path hmove' hchunks' =>
      refine .updateFile path (fun dest hdest => hmove' dest (hmove dest hdest)) ?_
      exact hchunks.trans (fun _ _ _ => UpdateFileChunk.Grows.trans) hchunks'

abbrev HunksGrow := GrowsInto Hunk.Grows

theorem HunksGrow.trans {a b c : List Hunk} (h : HunksGrow a b) (h' : HunksGrow b c) :
    HunksGrow a c :=
  GrowsInto.trans (fun _ _ _ => Hunk.Grows.trans) h h'

theorem ChangeKind.grows_push (kind : ChangeKind) (text : Text) (chunk : UpdateFileChunk) :
    chunk.Grows (kind.push text chunk) := by
  cases kind <;> constructor <;> simp [push, UpdateFileChunk.pushContextLine]

variable {chunks chunks' : List UpdateFileChunk} {movePath movePath' : Option Text}
  {f : UpdateFileChunk → UpdateFileChunk}

namespace StreamingPatchParser

variable {p p' : StreamingPatchParser} {line : Text}

theorem grows_modifyLast
    (hf : ∀ chunk, UpdateFileChunk.Grows chunk (f chunk)) (chunks : List UpdateFileChunk) :
    GrowsInto UpdateFileChunk.Grows chunks (chunks.modifyLast f) := by
  rcases chunks.eq_nil_or_concat with rfl | ⟨init, chunk, rfl⟩
  · exact .nil _
  · rw [concat_eq_append, modifyLast_concat]
    exact .concat init (hf chunk)

theorem UpdateStep.grows (h : UpdateStep line movePath chunks movePath' chunks') (path : Text) :
    Hunk.Grows (.updateFile path movePath chunks) (.updateFile path movePath' chunks') := by
  rcases h with hline | dest | changeContext | - | ⟨hline, heof⟩
  · exact .updateFile path (fun _ => id) (.refl _)
  · exact .updateFile path (by simp) (.refl _)
  · exact .updateFile path (fun _ => id) (.append _ _)
  · exact .updateFile path (fun _ => id) (grows_modifyLast (fun _ => by constructor <;> simp) _)
  · refine .updateFile path (fun _ => id) ?_
    unfold onLastChunk
    split
    · next hnil =>
      subst hnil
      exact .nil _
    · exact grows_modifyLast (ChangeKind.grows_push _ _) _

theorem processLine_grows (h : p.processLine line = .ok p') : HunksGrow p.hunks p'.hunks := by
  rcases processLine_step h with
    - | - | - | - | ⟨-, -, hhunks⟩ | ⟨-, hhunks, hupdate⟩ | -
  · exact .refl _
  · exact .refl _
  · exact .refl _
  · exact .append _ _
  · rw [hhunks]
    exact .concat _ (.addFile _ (by simp))
  · rw [hhunks]
    exact .concat _ (hupdate.grows _)
  · exact .refl _

end StreamingPatchParser

/-! ### Hunks without a carriage return to lose -/

theorem length_stripLineEnds_le (text : Text) : (stripLineEnds text).length ≤ text.length := by
  induction text with
  | nil => exact le_rfl
  | cons _ _ ih =>
    unfold stripLineEnds
    split
    · exact ih.trans (by simp)
    · simpa using ih

theorem stripLineEnds_push_eq_iff {contents line : Text} (h : Terminated contents)
    (hline : '\n' ∉ line) :
    stripLineEnds (contents ++ line ++ ['\n']) = contents ++ line ++ ['\n'] ↔
      stripLineEnds contents = contents ∧ stripCr line = line := by
  rw [stripLineEnds_push h hline, append_left_inj]
  constructor
  · intro heq
    have hlength := congrArg List.length heq
    simp only [length_append] at hlength
    have hcontents := length_stripLineEnds_le contents
    have hle := length_stripCr_le line
    exact append_inj heq (by omega)
  · rintro ⟨hcontents, hstrip⟩
    rw [hcontents, hstrip]

theorem ChangeKind.stripCr_push_eq_iff (kind : ChangeKind) {text : Text} (chunk : UpdateFileChunk) :
    (kind.push text chunk).stripCr = kind.push text chunk ↔
      chunk.stripCr = chunk ∧ Patch.stripCr text = text := by
  rcases chunk with ⟨changeContext, oldLines, newLines, contextLineIndices, isEndOfFile⟩
  cases kind <;>
    simp only [push, UpdateFileChunk.stripCr, UpdateFileChunk.pushContextLine, map_append,
      map_cons, map_nil, UpdateFileChunk.mk.injEq, append_singleton_inj, true_and,
      and_true] <;>
    tauto

variable {lines : List Text} {number : ℕ}

namespace StreamingPatchParser

variable {p p' : StreamingPatchParser} {line : Text}

theorem map_modifyLast_eq_iff {P : Prop}
    (hf : ∀ chunk, (f chunk).stripCr = f chunk ↔ chunk.stripCr = chunk ∧ P)
    (hne : chunks ≠ []) :
    (chunks.modifyLast f).map (·.stripCr) = chunks.modifyLast f ↔
      chunks.map (·.stripCr) = chunks ∧ P := by
  obtain ⟨init, chunk, rfl⟩ := chunks.eq_nil_or_concat.resolve_left hne
  rw [concat_eq_append, modifyLast_concat, map_append, map_append,
    map_singleton, map_singleton, append_singleton_inj, append_singleton_inj,
    hf, and_assoc]

/-- The chunks of an update hunk stay plain as long as the text of each line is. -/
theorem UpdateStep.plain_iff {init : List Hunk} {path : Text} (hmode : p.mode = .updateFile number)
    (hhunks : p.hunks = init ++ [.updateFile path movePath chunks])
    (h : UpdateStep line movePath chunks movePath' chunks') :
    chunks'.map (·.stripCr) = chunks' ↔
      chunks.map (·.stripCr) = chunks ∧
        ∀ text ∈ p.payload line, Patch.stripCr text = text := by
  have hnone : ∀ c, line.head? = some c → c ∉ [' ', '+', '-'] → p.payload line = none :=
    fun c hhead => payload_eq_none_of_head? (by simp [hmode]) hhead
  have hpayload : ∀ c text, line = c :: text → c ∈ [' ', '+', '-'] → p.payload line =
      if chunks.getLast?.any (·.isEndOfFile) = false then some text else none := by
    rintro c text rfl hc
    simp [payload, hmode, hhunks, hc]
  cases h with
  | afterEof _ heof =>
    have hnil : p.payload line = none := by
      rcases line with - | ⟨c, text⟩
      · simp [payload, hmode, hhunks]
      · by_cases hc : c ∈ [' ', '+', '-']
        · rw [hpayload c text rfl hc, heof]
          rfl
        · exact hnone c rfl hc
    simp [hnil]
  | move _ hline => simp [hnone _ hline (by decide)]
  | openChunk _ hline =>
    simp [hnone _ hline (by decide), UpdateFileChunk.stripCr, UpdateFileChunk.default]
  | endOfFile hline =>
    rw [hnone _ hline (by decide)]
    rcases eq_or_ne chunks [] with rfl | hne
    · exact ⟨fun _ => ⟨rfl, by simp⟩, fun _ => rfl⟩
    have heof (chunk : UpdateFileChunk) :
        { chunk with isEndOfFile := true }.stripCr = { chunk with isEndOfFile := true } ↔
          chunk.stripCr = chunk ∧ True := by
      rcases chunk
      simp [UpdateFileChunk.stripCr]
    rw [map_modifyLast_eq_iff heof hne]
    simp
  | @change _ _ kind text hline heof =>
    have htext : (∀ text ∈ p.payload line, Patch.stripCr text = text) ↔ Patch.stripCr text = text := by
      cases hline with
      | empty => simp [payload, hmode, hhunks, Patch.stripCr]
      | context | added | removed => simp [hpayload _ _ rfl, heof]
    rw [htext]
    unfold onLastChunk
    split
    · next hnil =>
      subst hnil
      have hdefault : UpdateFileChunk.default.stripCr = UpdateFileChunk.default := rfl
      simp [kind.stripCr_push_eq_iff, hdefault]
    · next hne => exact map_modifyLast_eq_iff (kind.stripCr_push_eq_iff) hne

/-- **One line.**  The hunks have no carriage return to lose exactly when they had none and the text
of the line ends in none. -/
theorem processLine_plain_iff (h : p.BetweenLines) (hn : '\n' ∉ line)
    (hok : p.processLine line = .ok p') :
    p'.hunks.map Hunk.stripCr = p'.hunks ↔
      p.hunks.map Hunk.stripCr = p.hunks ∧
        ∀ text ∈ p.payload line, Patch.stripCr text = text := by
  cases processLine_step hok with
  | beginPatch hmode => simp [payload, hmode]
  | environment hmode => simp [payload, hmode]
  | endPatch _ hend =>
    have hnone : p.payload line = none := payload_eq_none (by rw [hend]; rfl)
    simp [hnone]
  | header _ hheader hhead =>
    rw [payload_eq_none hhead, map_append, map_singleton]
    cases hheader <;> simp [Hunk.stripCr, stripLineEnds]
  | @addLine _ path contents text hmode hline hhunks =>
    subst hline
    have hterminated : Terminated contents := h.terminated path contents (by simp [hhunks])
    have hpush := stripLineEnds_push_eq_iff hterminated fun hmem =>
      hn (mem_cons_of_mem _ hmem)
    have hpayload : p.payload ('+' :: text) = some text := by simp [payload, hmode]
    rw [hpayload, hhunks, map_append, map_append, map_singleton, map_singleton,
      append_singleton_inj, append_singleton_inj]
    simp only [Hunk.stripCr, Hunk.addFile.injEq, hpush, true_and, Option.mem_some_iff,
      forall_eq', and_assoc]
  | @updateLine _ _ _ _ _ _ _ hmode hhunks hupdate =>
    rw [hhunks, map_append, map_append, map_singleton, map_singleton,
      append_singleton_inj, append_singleton_inj]
    simp only [Hunk.stripCr, Hunk.updateFile.injEq, true_and, hupdate.plain_iff hmode hhunks,
      and_assoc]
  | blank hmode => simp [payload, hmode]

/-- The texts that the lines add to the hunks end in no carriage return. -/
def PlainPayloads (p : StreamingPatchParser) : List Text → Prop
  | [] => True
  | line :: lines =>
    (∀ text ∈ p.payload (Patch.stripCr line), text.getLast? ≠ some '\r') ∧
      match p.feedLine line with
      | .ok q => PlainPayloads q lines
      | .error _ => True

instance decidablePlainPayloads (p : StreamingPatchParser) :
    (lines : List Text) → Decidable (p.PlainPayloads lines)
  | [] => isTrue trivial
  | line :: lines =>
    have : Decidable (match p.feedLine line with
        | .ok q => PlainPayloads q lines
        | .error _ => True) :=
      match p.feedLine line with
      | .ok q => decidablePlainPayloads q lines
      | .error _ => isTrue trivial
    inferInstanceAs (Decidable
      ((∀ text ∈ p.payload (Patch.stripCr line), text.getLast? ≠ some '\r') ∧ _))

theorem feedLines_plain_iff (h : p.BetweenLines)
    (hlines : ∀ line ∈ lines, '\n' ∉ line) (hfeed : lines.foldlM feedLine p = .ok p') :
    p'.hunks.map Hunk.stripCr = p'.hunks ↔
      p.hunks.map Hunk.stripCr = p.hunks ∧ p.PlainPayloads lines := by
  induction lines generalizing p with
  | nil =>
    cases hfeed
    simp [PlainPayloads]
  | cons line _ ih =>
    obtain ⟨q, hline, hrest⟩ := bind_eq_ok.mp hfeed
    have hn : '\n' ∉ Patch.stripCr line := fun hmem =>
      hlines line mem_cons_self (mem_of_mem_stripCr hmem)
    have hstep := processLine_plain_iff h.nextLine hn hline
    rw [ih (h.feedLine hline) (fun other hother => hlines other (mem_cons_of_mem _ hother))
      hrest, hstep]
    simp only [PlainPayloads, hline, stripCr_eq_self_iff, and_assoc]
    rfl

/-! ### After the last line -/

theorem pushDelta_append (p : StreamingPatchParser) (text rest : Text) :
    p.pushDelta (text ++ rest) = (p.pushDelta text >>= fun q => q.pushDelta rest) :=
  foldlM_append

theorem pushDeltas_eq (p : StreamingPatchParser) (deltas : List Text) :
    deltas.foldlM pushDelta p = p.pushDelta deltas.flatten := by
  induction deltas generalizing p with
  | nil => rfl
  | cons _ _ ih =>
    rw [flatten_cons, pushDelta_append]
    exact congrArg _ (funext ih)

theorem processLine_lineBuffer (h : p.processLine line = .ok p') : p'.lineBuffer = p.lineBuffer := by
  cases processLine_step h <;> rfl

/-- Inside an update hunk a line that does not start with a marker leads to no other mode. -/
theorem processLine_mode_of_update (hmode : p.mode = .updateFile number)
    (hhead : (trimEnd line).head? ≠ some '*') (h : p.processLine line = .ok p') :
    p'.mode = .updateFile number := by
  have htrimmed : p.trimmed line = trimEnd line := by simp [trimmed, hmode]
  cases processLine_step h with
  | beginPatch hother => simp [hmode] at hother
  | environment hother => simp [hmode] at hother
  | endPatch _ hend =>
    rw [htrimmed] at hend
    exact absurd (by rw [hend]; rfl) hhead
  | header _ _ hmarker =>
    rw [htrimmed] at hmarker
    exact absurd hmarker hhead
  | addLine | updateLine | blank => exact hmode

theorem processLine_endPatch (hstarted : p.mode ≠ .notStarted) (hended : p.mode ≠ .endedPatch)
    (hline : p.trimmed line = endPatchMarker)
    (hensure : p.ensureUpdateHunkIsNotEmpty endPatchMarker = .ok ()) :
    p.processLine line = .ok { p with mode := .endedPatch } := by
  have hmarker : (if p.mode = .startedPatch then afterMarker environmentIdMarker endPatchMarker
      else none) = none := by
    rw [show afterMarker environmentIdMarker endPatchMarker = none from by decide, ite_self]
  refine processLine_of_handled hstarted hended ?_
  rw [hline, handleHunkHeadersAndEndPatch, hmarker]
  exact bind_eq_ok.mpr ⟨(), hensure, rfl⟩

/-- What blank text cannot change. -/
structure SameEnd (p p' : StreamingPatchParser) : Prop where
  ended : p.mode = .endedPatch →
    p'.mode = .endedPatch ∧ p'.hunks = p.hunks ∧ p'.environmentId = p.environmentId
  update : ∀ number, p.mode = .updateFile number → p'.mode = .updateFile number

theorem SameEnd.trans {a b c : StreamingPatchParser} (h : a.SameEnd b) (h' : b.SameEnd c) :
    a.SameEnd c where
  ended := fun hmode => by
    obtain ⟨hb, hhunks, henv⟩ := h.ended hmode
    obtain ⟨hc, hhunks', henv'⟩ := h'.ended hb
    exact ⟨hc, hhunks'.trans hhunks, henv'.trans henv⟩
  update := fun number hmode => h'.update number (h.update number hmode)

theorem trim_eq_nil {cs : Text} (h : ∀ c ∈ cs, isWhitespace c) : trim cs = [] := by
  have hstart : trimStart cs = [] := dropWhile_eq_nil_iff.mpr h
  rw [trim, hstart]
  rfl

theorem trimEnd_eq_nil {cs : Text} (h : ∀ c ∈ cs, isWhitespace c) : trimEnd cs = [] := by
  have hend := trimEnd_append_whitespace [] h
  rwa [nil_append] at hend

theorem processLine_of_ended (hmode : p.mode = .endedPatch) (hline : ∀ c ∈ line, isWhitespace c) :
    p.processLine line = .ok p := by
  unfold processLine
  rw [hmode]
  exact if_pos (trim_eq_nil hline)

theorem processLine_sameEnd (hline : ∀ c ∈ line, isWhitespace c)
    (h : p.nextLine.processLine line = .ok p') : p.SameEnd p' where
  ended := fun hmode => by
    cases (processLine_of_ended (p := p.nextLine) hmode hline).symm.trans h
    exact ⟨hmode, rfl, rfl⟩
  update := fun number hmode =>
    processLine_mode_of_update (p := p.nextLine) hmode (by simp [trimEnd_eq_nil hline]) h

section

variable (hbuffer : ∀ c ∈ p.lineBuffer, isWhitespace c)

include hbuffer

theorem pushDelta_sameEnd {text : Text}
    (htext : ∀ c ∈ text, isWhitespace c) (h : p.pushDelta text = .ok p') :
    p.SameEnd p' ∧ ∀ c ∈ p'.lineBuffer, isWhitespace c := by
  induction text generalizing p with
  | nil =>
    cases h
    exact ⟨⟨fun hmode => ⟨hmode, rfl, rfl⟩, fun _ => id⟩, hbuffer⟩
  | cons c _ ih =>
    have hrest := fun d hd => htext d (mem_cons_of_mem c hd)
    obtain ⟨q, hchar, hq⟩ := bind_eq_ok.mp h
    unfold pushChar at hchar
    split at hchar
    · have hsame := processLine_sameEnd (fun d hd => hbuffer d (mem_of_mem_stripCr hd)) hchar
      have hempty : q.lineBuffer = [] := processLine_lineBuffer hchar
      obtain ⟨hlater, hblank⟩ := ih (by simp [hempty]) hrest hq
      exact ⟨hsame.trans hlater, hblank⟩
    · cases hchar
      have hall : ∀ d ∈ p.lineBuffer ++ [c], isWhitespace d := fun d hd => by
        rcases mem_append.mp hd with hd | hd
        · exact hbuffer d hd
        · rw [mem_singleton.mp hd]
          exact htext c mem_cons_self
      obtain ⟨hsame, hblank⟩ := ih (p := { p with lineBuffer := p.lineBuffer ++ [c] }) hall hrest hq
      exact ⟨⟨hsame.ended, hsame.update⟩, hblank⟩

theorem takeLastLine_blank : p.takeLastLine =
      if p.lineBuffer = [] then .ok p else p.nextLine.processLine p.lineBuffer := by
  unfold takeLastLine
  rw [trim_eq_nil hbuffer, if_neg (by decide : ([] : Text) ≠ endPatchMarker)]

theorem finish_of_ended (hmode : p.mode = .endedPatch) :
    ∃ final, p.finish = .ok final ∧ final.hunks = p.hunks ∧
      final.environmentId = p.environmentId := by
  unfold finish
  rw [takeLastLine_blank hbuffer]
  split
  · exact ⟨p, if_pos hmode, rfl, rfl⟩
  · rw [processLine_of_ended (p := p.nextLine) hmode hbuffer]
    exact ⟨p.nextLine, if_pos hmode, rfl, rfl⟩

theorem finish_of_update (hmode : p.mode = .updateFile number) (final : StreamingPatchParser) :
    p.finish ≠ .ok final := by
  intro hfinish
  obtain ⟨q, hlast, hrest⟩ := bind_eq_ok.mp hfinish
  have hq : q.mode = .updateFile number := by
    rw [takeLastLine_blank hbuffer] at hlast
    split at hlast
    · cases hlast
      exact hmode
    · exact (processLine_sameEnd hbuffer hlast).update number hmode
  rw [if_neg (by simp [hq])] at hrest
  cases hrest

end
end StreamingPatchParser

/-! ### The lines of the trimmed text -/

theorem joined_nil (lines : List Text) :
    ['\n'].intercalate (lines ++ [[]]) = lines.flatMap (· ++ ['\n']) := by
  induction lines with
  | nil => rfl
  | cons _ _ ih => rw [joined_cons, ih, flatMap_cons, append_cons]

variable {patch : Text}

/-- A text that is a patch without heredoc, line by line. -/
theorem exists_patchText (h : checkPatchBoundariesStrict (textLines [] (trim patch)) = .ok lines) :
    ∃ raw : PatchText, raw.text = trim patch := by
  obtain ⟨init, last, hsplit⟩ :=
    ((trim patch).splitOn '\n').eq_nil_or_concat.resolve_left (splitOn_ne_nil _ _)
  rw [concat_eq_append] at hsplit
  have hjoin : ['\n'].intercalate (init ++ [last]) = trim patch := by
    rw [← hsplit, intercalate_splitOn]
  have hplain : ∀ line ∈ init ++ [last], '\n' ∉ line := hsplit ▸ LineLog.not_mem_of_mem_splitOn '\n' _
  obtain ⟨first, mid, last', hlines, -, hbegin, hend⟩ := checkPatchBoundariesStrict_ok h
  have hne : last ≠ [] := by
    rintro rfl
    rcases init.eq_nil_or_concat with rfl | ⟨init, line, rfl⟩
    · rw [← hjoin] at hlines
      cases hlines
    · -- a trimmed text does not end in a newline
      have htrim : trimEnd (trim patch) = trim patch := rdropWhile_idempotent _ _
      refine getLast?_ne_of_trimEnd (c := '\n') (by decide) htrim ?_
      rw [← hjoin, joined_nil, concat_eq_append, flatMap_append, flatMap_singleton,
        ← append_assoc, getLast?_concat]
  rw [← hjoin, textLines_joined (fun line hline => hplain line (by simp [hline]))
    (hplain last (by simp)) hne] at hlines
  rcases init with - | ⟨first₀, init⟩
  · simp at hlines
  simp only [map_cons, cons_append, List.cons.injEq] at hlines
  obtain ⟨hfirst, hrest⟩ := hlines
  obtain ⟨-, hlast⟩ := append_singleton_inj.mp hrest
  refine ⟨⟨first₀, init, last, ?_, ?_, hplain⟩, hjoin⟩
  · rw [← trim_stripCr, hfirst, hbegin]
  · rw [hlast, hend]

/-- The whitespace after a text. -/
def trailing (text : Text) : Text := (trimStart text).rtakeWhile isWhitespace

theorem eq_leading_append (text : Text) :
    text = text.takeWhile isWhitespace ++ (trim text ++ trailing text) := by
  have hend : trim text ++ trailing text = trimStart text := rdropWhile_append_rtakeWhile
  rw [hend]
  exact takeWhile_append_dropWhile.symm

theorem trim_leading_append {lead line : Text} (hlead : ∀ c ∈ lead, isWhitespace c) :
    trim (lead ++ line) = trim line := by
  have hstart : trimStart (lead ++ line) = trimStart line := by
    unfold trimStart
    rw [dropWhile_append, if_pos]
    simpa using hlead
  rw [← trim_trimStart, hstart, trim_trimStart]

variable {raw : PatchText} {final q q₀ : StreamingPatchParser}

namespace StreamingPatchParser

/-- A blank line before the patch is refused. -/
theorem newline_notMem_leading {lead rest : Text}
    (hlead : ∀ c ∈ lead, isWhitespace c) (h : default.pushDelta (lead ++ rest) = .ok q) :
    '\n' ∉ lead := by
  intro hmem
  obtain ⟨line, tail, rfl, hline⟩ := eq_append_cons_of_mem hmem
  rw [append_assoc, pushDelta_line _ hline] at h
  obtain ⟨q', hchar, -⟩ := bind_eq_ok.mp h
  have hblank : trim (Patch.stripCr line) = [] := by
    rw [trim_stripCr]
    exact trim_eq_nil fun c hc => hlead c (by simp [hc])
  have hfirst : default.nextLine.processLine (Patch.stripCr line) = .error firstLineError := by
    unfold processLine
    rw [hblank]
    rfl
  cases hfirst.symm.trans hchar

/-- The stream reads the same lines as the batch parser, up to the last one and what follows it. -/
theorem stream_lines (hraw : raw.text = trim patch) (h : default.pushDelta patch = .ok q) :
    ∃ q₀, raw.mid.foldlM feedLine PatchText.started = .ok q₀ ∧
      { q₀ with lineBuffer := raw.last }.pushDelta (trailing patch) = .ok q := by
  have hws : ∀ c ∈ patch.takeWhile isWhitespace, isWhitespace c := fun _ => mem_takeWhile_imp
  rw [eq_leading_append patch] at h
  have hn := newline_notMem_leading hws h
  -- the leading whitespace belongs to the first line
  have hjoin : patch.takeWhile isWhitespace ++ raw.text =
      ['\n'].intercalate ((patch.takeWhile isWhitespace ++ raw.first) :: raw.mid ++ [raw.last]) := by
    show _ ++ ['\n'].intercalate (raw.first :: raw.mid ++ [raw.last]) = _
    rw [joined_cons, joined_cons, append_assoc]
  have hplain : ∀ line ∈ (patch.takeWhile isWhitespace ++ raw.first) :: raw.mid, '\n' ∉ line := by
    intro line hline
    rcases mem_cons.mp hline with rfl | hline
    · simpa [hn] using raw.plain raw.first (by simp)
    · exact raw.plain_mid line hline
  rw [← append_assoc, ← hraw, hjoin, pushDelta_append,
    pushDelta_joined betweenLines_default hplain (raw.plain raw.last (by simp)), foldlM_cons,
    feedLine_beginPatch (by rw [trim_leading_append hws, raw.begins])] at h
  obtain ⟨q₁, hlines, htrailing⟩ := bind_eq_ok.mp h
  obtain ⟨q₀, hmid, hok⟩ := bind_eq_ok.mp hlines
  cases hok
  exact ⟨q₀, hmid, htrailing⟩

variable {last trail : Text}

/-- Inside an update hunk an indented end marker is a context line: with a newline after it, the
patch does not end. -/
theorem finish_of_indented (hmode : q₀.mode = .updateFile number) (hindent : trimStart last ≠ last)
    (hws : ∀ c ∈ trail, isWhitespace c) (hnewline : '\n' ∈ trail)
    (h : { q₀ with lineBuffer := last }.pushDelta trail = .ok q) :
    q.finish ≠ .ok final := by
  obtain ⟨blank, rest, rfl, hblank⟩ := eq_append_cons_of_mem hnewline
  rw [pushDelta_line _ hblank] at h
  obtain ⟨q₁, hline, hrest⟩ := bind_eq_ok.mp h
  have hhead : (trimEnd (Patch.stripCr (last ++ blank))).head? ≠ some '*' := by
    rw [trimEnd_stripCr, trimEnd_append_whitespace _ fun c hc => hws c (by simp [hc])]
    intro hstar
    obtain ⟨tail, rfl⟩ := head?_eq_some_iff.mp (head?_of_trimEnd hstar)
    exact hindent rfl
  have hfeed : q₀.nextLine.processLine (Patch.stripCr (last ++ blank)) = .ok q₁ := hline
  have hmode₁ := processLine_mode_of_update (p := q₀.nextLine) hmode hhead hfeed
  have hbuffer : q₁.lineBuffer = [] := processLine_lineBuffer hfeed
  obtain ⟨hsame, hq⟩ := pushDelta_sameEnd (by simp [hbuffer])
    (fun c hc => hws c (by simp [hc])) hrest
  exact finish_of_update hq (hsame.update number hmode₁) final

/-- In every other case the patch ends with the hunks it has. -/
theorem finish_of_recognised (hend : trim last = endPatchMarker) (hws : ∀ c ∈ trail, isWhitespace c)
    (hrecognised : '\n' ∈ trail → ∀ number, q₀.mode = .updateFile number → trimStart last = last)
    (hensure : q₀.nextLine.ensureUpdateHunkIsNotEmpty endPatchMarker = .ok ())
    (h : { q₀ with lineBuffer := last }.pushDelta trail = .ok q) :
    ∃ final, q.finish = .ok final ∧ final.hunks = q₀.hunks ∧
      final.environmentId = q₀.environmentId := by
  by_cases hnewline : '\n' ∈ trail
  · obtain ⟨blank, rest, rfl, hblank⟩ := eq_append_cons_of_mem hnewline
    have hwsBlank : ∀ c ∈ blank, isWhitespace c := fun c hc => hws c (by simp [hc])
    rw [pushDelta_line _ hblank] at h
    obtain ⟨q₁, hline, hrest⟩ := bind_eq_ok.mp h
    have hfeed : q₀.nextLine.processLine (Patch.stripCr (last ++ blank)) = .ok q₁ := hline
    have htrim : trim (Patch.stripCr (last ++ blank)) = endPatchMarker := by
      rw [trim_stripCr, ← trim_trimEnd, trimEnd_append_whitespace _ hwsBlank, trim_trimEnd, hend]
    -- a patch that has not started or has ended takes no end marker
    have hstarted : q₀.nextLine.mode ≠ .notStarted := by
      intro hmode
      unfold processLine at hfeed
      simp only [hmode, htrim] at hfeed
      cases hfeed
    have hended : q₀.nextLine.mode ≠ .endedPatch := by
      intro hmode
      unfold processLine at hfeed
      simp only [hmode, htrim] at hfeed
      cases hfeed
    have htrimmed : q₀.nextLine.trimmed (Patch.stripCr (last ++ blank)) = endPatchMarker := by
      unfold trimmed
      split
      · next number hmode =>
        rw [trimEnd_stripCr, trimEnd_append_whitespace _ hwsBlank, ← hend, trim,
          hrecognised hnewline number hmode]
      · exact htrim
    rw [processLine_endPatch hstarted hended htrimmed hensure] at hfeed
    cases hfeed
    obtain ⟨hsame, hq⟩ := pushDelta_sameEnd (by simp [nextLine])
      (fun c hc => hws c (by simp [hc])) hrest
    obtain ⟨hmode, hhunks, henv⟩ := hsame.ended rfl
    obtain ⟨final, hfinish, hfhunks, hfenv⟩ := finish_of_ended hq hmode
    exact ⟨final, hfinish, hfhunks.trans hhunks, hfenv.trans henv⟩
  · have hpush := pushDelta_line { q₀ with lineBuffer := last } hnewline []
    rw [append_nil, h] at hpush
    cases hpush
    have htrim : trim (last ++ trail) = endPatchMarker := by
      rw [← trim_trimEnd, trimEnd_append_whitespace _ hws, trim_trimEnd, hend]
    have hfinish := finish_endPatch q₀ htrim
    rw [hensure] at hfinish
    exact ⟨_, hfinish, rfl, rfl⟩

end StreamingPatchParser

/-! ### Agreement -/

/-- The streaming parser, fed the deltas and finished, has the hunks and the environment of the
batch parser, and every hunk list on the way grew into the final one. -/
def StreamAgrees (deltas : List Text) (args : ApplyPatchArgs) : Prop :=
  ∃ q final, deltas.foldlM StreamingPatchParser.pushDelta .default = .ok q ∧
    q.finish = .ok final ∧ final.hunks = args.hunks ∧ final.environmentId = args.environmentId ∧
    ∀ seen rest p, deltas = seen ++ rest →
      seen.foldlM StreamingPatchParser.pushDelta .default = .ok p → HunksGrow p.hunks final.hunks

/-- Neither difference between the parsers shows: no line of the trimmed text leaves a carriage
return in a hunk, and an end marker that ends an update hunk with a newline is not indented. -/
structure StreamsAlike (patch : Text) : Prop where
  payloads : StreamingPatchParser.default.PlainPayloads ((trim patch).splitOn '\n').dropLast
  ending : '\n' ∈ trailing patch → ∀ last ∈ ((trim patch).splitOn '\n').getLast?, ∀ q number,
    ((trim patch).splitOn '\n').dropLast.foldlM StreamingPatchParser.feedLine .default = .ok q →
      q.mode = .updateFile number → trimStart last = last

open StreamingPatchParser

theorem grows_of_finish {deltas : List Text}
    (haccept : deltas.foldlM pushDelta .default = .ok q)
    (hfinish : q.finish = .ok final) (seen rest : List Text) (p : StreamingPatchParser)
    (hdeltas : deltas = seen ++ rest)
    (hseen : seen.foldlM pushDelta .default = .ok p) :
    HunksGrow p.hunks final.hunks := by
  rw [hdeltas, foldlM_append, hseen] at haccept
  have hrest : p.pushDelta rest.flatten = .ok q := by
    rw [← pushDeltas_eq]
    exact haccept
  exact hunks_of_run (fun _ => .refl _) .trans
    processLine_grows hrest hfinish

/-- The condition, over the lines between the markers. -/
theorem streamsAlike_iff (hraw : raw.text = trim patch)
    (hmid : raw.mid.foldlM feedLine PatchText.started = .ok q₀) :
    StreamsAlike patch ↔
      PatchText.started.PlainPayloads raw.mid ∧
        ('\n' ∈ trailing patch → ∀ number, q₀.mode = .updateFile number →
          trimStart raw.last = raw.last) := by
  have hsplit : (trim patch).splitOn '\n' = raw.first :: raw.mid ++ [raw.last] := by
    rw [← hraw]
    exact splitOn_intercalate '\n' raw.plain (cons_ne_nil _ _)
  have hfeed : (raw.first :: raw.mid).foldlM feedLine .default = .ok q₀ := by
    rw [foldlM_cons, feedLine_beginPatch raw.begins]
    exact hmid
  have hpayloads : StreamingPatchParser.default.PlainPayloads (raw.first :: raw.mid) ↔
      PatchText.started.PlainPayloads raw.mid := by
    have hnone : StreamingPatchParser.default.payload (Patch.stripCr raw.first) = none := rfl
    rw [PlainPayloads, hnone, feedLine_beginPatch raw.begins]
    exact and_iff_right (by simp)
  constructor
  · rintro ⟨hplain, hending⟩
    rw [hsplit, dropLast_concat] at hplain hending
    refine ⟨hpayloads.mp hplain, fun hnewline number hmode => ?_⟩
    exact hending hnewline raw.last (by rw [getLast?_concat]; rfl) q₀ number hfeed hmode
  · rintro ⟨hplain, hending⟩
    refine ⟨?_, ?_⟩
    · rw [hsplit, dropLast_concat]
      exact hpayloads.mpr hplain
    · rw [hsplit, dropLast_concat]
      intro hnewline last hlast q number hq hmode
      rw [getLast?_concat] at hlast
      cases hlast
      cases hfeed.symm.trans hq
      exact hending hnewline number hmode

/-- **Streaming and batch parsing agree exactly on the texts that stream alike**, however the text is
split. -/
theorem stream_agrees_iff (patch : Text) (args : ApplyPatchArgs) (lines deltas : List Text)
    (q : StreamingPatchParser) (hparse : parsePatch patch = .ok args)
    (hstrict : checkPatchBoundariesStrict (textLines [] (trim patch)) = .ok lines)
    (hdeltas : deltas.flatten = patch)
    (haccept : deltas.foldlM StreamingPatchParser.pushDelta .default = .ok q) :
    StreamAgrees deltas args ↔ StreamsAlike patch := by
  obtain ⟨raw, hraw⟩ := exists_patchText hstrict
  have hpush : StreamingPatchParser.default.pushDelta patch = .ok q := by
    rw [← hdeltas, ← pushDeltas_eq, haccept]
  obtain ⟨q₀, hmid, htrailing⟩ := stream_lines hraw hpush
  -- the batch parser reads the same lines without their carriage returns
  have hbatch : args.hunks = q₀.hunks.map Hunk.stripCr ∧ args.environmentId = q₀.environmentId ∧
      q₀.nextLine.ensureUpdateHunkIsNotEmpty endPatchMarker = .ok () := by
    have htext : parsePatch patch = parsePatch raw.text := by
      rw [parsePatch_eq, parsePatch_eq, hraw, trim_trim]
    have hstripped := stripCr_feedLines PatchText.betweenLines_started
      raw.plain_mid hmid
    rw [htext, raw.parsePatch_text, raw.again.parseJoined_lines] at hparse
    obtain ⟨qb, hqb, hrest⟩ := bind_eq_ok.mp hparse
    obtain ⟨⟨⟩, hensure, hok⟩ := bind_eq_ok.mp hrest
    cases hok
    cases hstripped.symm.trans hqb
    exact ⟨rfl, rfl, (stripCr_ensure q₀.nextLine endPatchMarker).symm.trans
      hensure⟩
  obtain ⟨hhunks, henv, hensure⟩ := hbatch
  have hplain : args.hunks = q₀.hunks ↔ PatchText.started.PlainPayloads raw.mid := by
    rw [hhunks, feedLines_plain_iff PatchText.betweenLines_started
      raw.plain_mid hmid]
    exact and_iff_right rfl
  have hws : ∀ c ∈ trailing patch, isWhitespace c := fun _ => mem_rtakeWhile_imp
  rw [streamsAlike_iff hraw hmid, ← hplain]
  constructor
  · rintro ⟨q', final, haccept', hfinish, hsame, -, -⟩
    cases haccept.symm.trans haccept'
    have hrecognised : '\n' ∈ trailing patch → ∀ number, q₀.mode = .updateFile number →
        trimStart raw.last = raw.last := by
      intro hnewline number hmode
      by_contra hindent
      exact finish_of_indented hmode hindent hws hnewline htrailing hfinish
    obtain ⟨final', hfinish', hhunks', -⟩ := finish_of_recognised raw.ends hws
      hrecognised hensure htrailing
    cases hfinish.symm.trans hfinish'
    exact ⟨hsame.symm.trans hhunks', hrecognised⟩
  · rintro ⟨hsame, hrecognised⟩
    obtain ⟨final, hfinish, hfinal, henv'⟩ := finish_of_recognised raw.ends hws
      hrecognised hensure htrailing
    exact ⟨q, final, haccept, hfinish, hfinal.trans hsame.symm, henv'.trans henv.symm,
      grows_of_finish haccept hfinish⟩

/-- A patch that updates a file, in three deltas that cut its lines. -/
def updateDeltas : List Text :=
  ["*** Begin Patch\n*** Upd".toList, "ate File: a\n@@ f\n x\r\n-y\n+".toList,
    "z\n*** End Patch\n".toList]

theorem updateDeltas_stream_agrees :
    ∃ args, parsePatch updateDeltas.flatten = .ok args ∧ StreamAgrees updateDeltas args := by
  refine ⟨_, rfl, (stream_agrees_iff _ _ _ _ _ rfl rfl rfl rfl).mpr ⟨?_, ?_⟩⟩
  · decide
  · intro _ last hlast _ _ _ _
    obtain rfl : "*** End Patch".toList = last := Option.some.inj hlast
    rfl

/-- The line ends in two carriage returns: the stream takes one, the batch parser both.  And an
indented end marker with a newline after it ends the batch parser's patch only. -/
theorem streams_differ :
    (∃ args q final,
      parsePatch "*** Begin Patch\n*** Add File: a\n+x\r\r\n*** End Patch\n".toList = .ok args ∧
      StreamingPatchParser.default.pushDelta
        "*** Begin Patch\n*** Add File: a\n+x\r\r\n*** End Patch\n".toList = .ok q ∧
      q.finish = .ok final ∧ args.hunks = [.addFile "a".toList "x\n".toList] ∧
      final.hunks = [.addFile "a".toList "x\r\n".toList]) ∧
    ∃ args q,
      parsePatch "*** Begin Patch\n*** Update File: a\n@@\n+x\n *** End Patch\n".toList
        = .ok args ∧
      StreamingPatchParser.default.pushDelta
        "*** Begin Patch\n*** Update File: a\n@@\n+x\n *** End Patch\n".toList = .ok q ∧
      q.finish = .error lastLineError :=
  ⟨⟨_, _, _, rfl, rfl, rfl, by decide, by decide⟩, _, _, rfl, rfl, rfl⟩

end Patch

end CodexPlus
