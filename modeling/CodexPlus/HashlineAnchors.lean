/-
CodexPlus/HashlineAnchors.lean

Which anchors a write of fuzz_view_edit accepts.

`apply_mutation` changes the document it is given in place, so it is stated here once
more with the document as a state (`applyMutationInPlace`); a call that fails leaves
that state alone.  An endpoint is `Verified` when it is a line number with the hash of
that line, or a hash that one line alone has and that cannot be read as a line number.
Edits and deletions check both endpoints of their range for this.  Insertions check
all but the last part, and this is the only way in for an endpoint that is not verified.
-/
import CodexPlus.HashlineRoundTrip

namespace CodexPlus

open List

namespace Hashline

open EncodedLines FileRead PairSplit

/-! ### The document as a state -/

/-- A `?` on a result that does not touch the document. -/
def lift {α : Type} (result : Except FunctionCallError α) :
    ExceptT FunctionCallError (StateM Document) α :=
  ExceptT.mk (pure result)

/-- `apply_mutation` on the document behind its reference. -/
def applyMutationInPlace (args : HashlineArgs) (content : Option Text) :
    ExceptT FunctionCallError (StateM Document) (ℕ × ℕ × Text) :=
  match args.action with
  | .edit => do
    let anchor ← lift (requireAnchor args)
    let content ← lift (requireContent args)
    let replacement := splitContent content
    let (first, last) ← lift (resolveAnchorOrRange (← get) anchor)
    lift (if first = last ∧ replacement.length > 1 then .error (multiLineEdit first) else .ok ())
    modify fun doc => doc.splice first (last + 1) replacement
    let count := (← get).lines.length
    let changedEnd :=
      if replacement.isEmpty then min first (count - 1) else first + (replacement.length - 1)
    return (first, changedEnd, "Edited".toList)
  | .insert => do
    let anchor ← lift (requireAnchor args)
    let content ← lift (content.elim (.error (requires .insert "content".toList)) .ok)
    let resolved ← lift (resolveStrict (← get) anchor)
    let inserted := splitContent content
    let insertAt := if args.before then resolved.index else resolved.index + 1
    modify fun doc => doc.splice insertAt insertAt inserted
    return (insertAt, insertAt + (inserted.length - 1), "Inserted".toList)
  | .delete => do
    let anchor ← lift (requireAnchor args)
    let (first, last) ← lift (resolveAnchorOrRange (← get) anchor)
    modify fun doc => doc.splice first (last + 1) []
    let snippetIndex := min first ((← get).lines.length - 1)
    return (snippetIndex, snippetIndex, "Deleted".toList)
  | .read => lift (.error (.respondToModel "internal fuzz_view_edit mutation dispatch error".toList))

/-- What a result leaves of the document, and what it reports. -/
def leaves (doc : Document) :
    Except FunctionCallError Changed → Except FunctionCallError (ℕ × ℕ × Text) × Document
  | .ok changed => (.ok (changed.first, changed.last, changed.verb), changed.doc)
  | .error error => (.error error, doc)

theorem lift_bind_ok {α β : Type} (a : α)
    (next : α → ExceptT FunctionCallError (StateM Document) β) :
    (lift (.ok a) >>= next) = next a := rfl

variable (doc : Document)

theorem run_get_bind {α : Type} (next : Document → ExceptT FunctionCallError (StateM Document) α) :
    ((get >>= next : ExceptT FunctionCallError (StateM Document) α)).run doc =
      (next doc).run doc := rfl

/-- **In place or not, a mutation does the same**, and one that fails leaves the document. -/
theorem applyMutationInPlace_run (args : HashlineArgs) (content : Option Text) :
    (applyMutationInPlace args content).run doc = leaves doc (applyMutation doc args content) := by
  unfold applyMutationInPlace applyMutation
  rcases args.action with - | - | - | -
  · rfl
  · -- edit
    rcases requireAnchor args with error | anchor
    · rfl
    rcases requireContent args with error | text
    · rfl
    simp only [lift_bind_ok, ok_bind]
    refine (run_get_bind doc _).trans ?_
    rcases resolveAnchorOrRange doc anchor with error | ⟨first, last⟩
    · rfl
    by_cases hmany : first = last ∧ (splitContent text).length > 1
    · simp [lift_bind_ok, ok_bind, if_pos hmany]
      rfl
    · simp [lift_bind_ok, ok_bind, if_neg hmany]
      rfl
  · -- insert
    rcases requireAnchor args with error | anchor
    · rfl
    rcases content with - | text
    · rfl
    simp only [Option.elim_some, lift_bind_ok, ok_bind]
    refine (run_get_bind doc _).trans ?_
    rcases resolveStrict doc anchor with error | resolved
    · rfl
    · rfl
  · -- delete
    rcases requireAnchor args with error | anchor
    · rfl
    simp only [lift_bind_ok, ok_bind]
    refine (run_get_bind doc _).trans ?_
    rcases resolveAnchorOrRange doc anchor with error | ⟨first, last⟩
    · rfl
    · rfl

/-! ### Hashes of lines -/

/-- A line is listed once, under its full or under its short hash. -/
theorem listed_eq (full : UInt16) (hash : LineHash) (index : ℕ) :
    ((if .full full = hash then [index] else []) ++
        if (LineHash.full full).toShort = hash then [index] else []) =
      if hash.isMatch (.full full) then [index] else [] := by
  cases hash with
  | short short =>
    by_cases h : full.toUInt8 = short
    · simp [LineHash.isMatch, LineHash.toShort, h]
    · simp [LineHash.isMatch, LineHash.toShort, h, Ne.symm h]
  | full other =>
    by_cases h : full = other
    · simp [LineHash.isMatch, LineHash.toShort, h]
    · simp [LineHash.isMatch, LineHash.toShort, h, Ne.symm h]

theorem zipIdx_lines :
    doc.lines.zipIdx = (List.range doc.lines.length).map fun index => (doc.lineAt index, index) := by
  refine ext_getElem (by simp) fun i hi _ => ?_
  have hlt : i < doc.lines.length := by simpa using hi
  simp [Document.lineAt, hlt]

/-- The index holds, for a hash, the lines that match it. -/
theorem hashIndex_eq (hash : LineHash) :
    doc.hashIndex hash =
      (List.range doc.lines.length).filter fun index => hash.isMatch (doc.hashAt index) := by
  rw [Document.hashIndex, zipIdx_lines, flatMap_map]
  induction List.range doc.lines.length with
  | nil => rfl
  | cons index _ ih =>
    rw [flatMap_cons, ih, filter_cons]
    refine (congrArg (· ++ _) (listed_eq _ hash index)).trans ?_
    show (if hash.isMatch (doc.hashAt index) then [index] else []) ++ _ = _
    split <;> rfl

variable {doc : Document} {hash : LineHash} {resolved : ResolvedAnchor} {index : ℕ}

theorem hashIndex_eq_singleton :
    doc.hashIndex hash = [index] ↔
      ∀ i, (i < doc.lines.length ∧ hash.isMatch (doc.hashAt i)) ↔ i = index := by
  have hnodup : (doc.hashIndex hash).Nodup := by
    rw [hashIndex_eq]
    exact nodup_range.filter _
  have hmem : ∀ i, i ∈ doc.hashIndex hash ↔ i < doc.lines.length ∧ hash.isMatch (doc.hashAt i) := by
    intro i
    rw [hashIndex_eq, mem_filter, mem_range]
  simp only [← hmem]
  constructor
  · intro h i
    rw [h, mem_singleton]
  · intro h
    exact perm_singleton.mp ((perm_ext_iff_of_nodup hnodup (by simp)).mpr
      fun i => (h i).trans mem_singleton.symm)

/-! ### Endpoints -/

/-- One line alone has the hash. -/
def Document.OnlyLine (doc : Document) (hash : LineHash) (index : ℕ) : Prop :=
  ∀ i, (i < doc.lines.length ∧ hash.isMatch (doc.hashAt i)) ↔ i = index

/-- **An endpoint that names a line for certain**: a line number with the hash of that line, or a
hash of one line alone that is no line number. -/
inductive Verified (doc : Document) (endpoint : Text) (index : ℕ) : Prop
  | lineHash {number digits : Text} {hash : LineHash}
      (shape : trim endpoint = number ++ ':' :: digits)
      (line : parseLine number = some (index + 1))
      (value : parseHash digits (trim endpoint) = .ok hash)
      (there : index < doc.lines.length) (same : hash.isMatch (doc.hashAt index))
  | hash {hash : LineHash}
      (value : parseHash (trim endpoint) (trim endpoint) = .ok hash)
      (only : doc.OnlyLine hash index) (bare : parseLine (trim endpoint) = none)

/-- A hash of one line alone that is written like a line number. -/
def BareNumber (doc : Document) (endpoint : Text) (index : ℕ) : Prop :=
  (parseLine (trim endpoint)).isSome ∧
    ∃ hash, parseHash (trim endpoint) (trim endpoint) = .ok hash ∧ doc.OnlyLine hash index

theorem Document.OnlyLine.lt (h : doc.OnlyLine hash index) : index < doc.lines.length :=
  ((h index).mpr rfl).1

variable {endpoint : Text}

theorem Verified.lt (h : Verified doc endpoint index) : index < doc.lines.length := by
  cases h with
  | lineHash _ _ _ there => exact there
  | hash _ only => exact only.lt

variable {sep : Char} {text : Text}

theorem eq_of_splitOnce {left right : Text}
    (h : splitOnce sep text = some (left, right)) : text = left ++ sep :: right := by
  induction text generalizing left with
  | nil => cases h
  | cons c _ ih =>
    by_cases hc : c = sep
    · rw [splitOnce, if_pos hc] at h
      cases h
      rw [hc, nil_append]
    · rw [splitOnce, if_neg hc] at h
      obtain ⟨⟨left', right'⟩, hrest, hpair⟩ := Option.map_eq_some_iff.mp h
      cases hpair
      rw [ih hrest, cons_append]

theorem splitOnce_of_not_mem (h : sep ∉ text) : splitOnce sep text = none := by
  rcases hsplit : splitOnce sep text with - | ⟨left, right⟩
  · rfl
  · rw [eq_of_splitOnce hsplit] at h
    exact absurd (mem_append_right _ mem_cons_self) h

/-- What a hash is written with. -/
theorem parseHash_ok {anchor : Text} (h : parseHash text anchor = .ok hash) :
    text ≠ [] ∧ ∀ c ∈ text, isHexDigit c := by
  unfold parseHash at h
  split at h
  · cases h
  · next hdigits =>
    simp only [Bool.or_eq_true, Bool.not_eq_true', not_or, Bool.not_eq_false] at hdigits
    refine ⟨fun hnil => ?_, all_eq_true.mp hdigits.2⟩
    rw [hnil] at hdigits
    simp at hdigits

theorem parseLine_pos {line : ℕ} (h : parseLine text = some line) : 0 < line := by
  simpa using (Option.filter_eq_some_iff.mp h).2

theorem resolveAnchor_hash {mode : ResolveMode} (h : resolveAnchor doc (.hash hash) mode = .ok resolved) :
    doc.hashIndex hash = [resolved.index] := by
  unfold resolveAnchor at h
  rcases hindex : doc.hashIndex hash with - | ⟨line, - | ⟨next, rest⟩⟩
  · simp [hindex] at h
  · simp only [hindex] at h
    cases h
    rfl
  · simp [hindex] at h

theorem resolveAnchor_lineHash {line : ℕ}
    (h : resolveAnchor doc (.lineHash line hash) .strict = .ok resolved) :
    resolved.index < doc.lines.length ∧ hash.isMatch (doc.hashAt resolved.index) ∧
      resolved.index = line - 1 := by
  by_cases hmatch : line - 1 < doc.lines.length ∧ hash.isMatch (doc.hashAt (line - 1))
  · simp only [resolveAnchor, if_pos hmatch] at h
    cases h
    exact ⟨hmatch.1, hmatch.2, rfl⟩
  · simp only [resolveAnchor, if_neg hmatch] at h
    cases h

/-- **What a write resolves**: a verified endpoint, or a number that is taken for a hash. -/
theorem resolveStrict_ok (h : resolveStrict doc endpoint = .ok resolved) :
    Verified doc endpoint resolved.index ∨ BareNumber doc endpoint resolved.index := by
  obtain ⟨anchor, hparse, hresolve⟩ := bind_eq_ok.mp h
  unfold parseAnchor at hparse
  simp only at hparse
  split at hparse
  · cases hparse
  rcases hsplit : splitOnce ':' (trim endpoint) with - | ⟨number, digits⟩
  · -- a bare hash
    rw [hsplit] at hparse
    obtain ⟨hash, hhash, rfl⟩ := map_eq_ok.mp hparse
    have honly := hashIndex_eq_singleton.mp (resolveAnchor_hash hresolve)
    rcases hline : parseLine (trim endpoint) with - | line
    · exact .inl (.hash hhash honly hline)
    · exact .inr ⟨by rw [hline]; rfl, hash, hhash, honly⟩
  · -- a line and its hash
    rw [hsplit] at hparse
    rcases hline : parseLine number with - | line
    · simp [hline] at hparse
    simp only [hline] at hparse
    obtain ⟨hash, hhash, rfl⟩ := map_eq_ok.mp hparse
    obtain ⟨hlt, hmatch, hindex⟩ := resolveAnchor_lineHash hresolve
    have hpos : 0 < line := parseLine_pos hline
    have hsucc : line = resolved.index + 1 := by omega
    exact .inl (.lineHash (eq_of_splitOnce hsplit) (by rw [hline, hsucc]) hhash hlt hmatch)

theorem resolveStrict_lt
    (h : resolveStrict doc endpoint = .ok resolved) : resolved.index < doc.lines.length := by
  rcases resolveStrict_ok h with hverified | ⟨-, hash, -, honly⟩
  · exact hverified.lt
  · exact honly.lt

/-- A number that is taken for a hash is resolved, although it is not verified. -/
theorem BareNumber.resolves (h : BareNumber doc endpoint index) :
    (∃ hash, resolveStrict doc endpoint = .ok ⟨index, hash⟩) ∧ ∀ i, ¬ Verified doc endpoint i := by
  obtain ⟨hline, hash, hhash, honly⟩ := h
  obtain ⟨hne, hdigits⟩ := parseHash_ok hhash
  have hcolon : ':' ∉ trim endpoint := fun hmem => absurd (hdigits _ hmem) (by decide)
  have hdot : '.' ∉ trim endpoint := fun hmem => absurd (hdigits _ hmem) (by decide)
  constructor
  · refine ⟨hash, bind_eq_ok.mpr ⟨.hash hash, ?_, ?_⟩⟩
    · have hpair : ¬ ((trim endpoint).isEmpty || hasPair '.' '.' (trim endpoint)) := by
        simp [hne, not_hasPair_of_not_mem hdot]
      refine (if_neg hpair).trans ?_
      rw [splitOnce_of_not_mem hcolon]
      exact map_eq_ok.mpr ⟨hash, hhash, rfl⟩
    · simp [resolveAnchor, hashIndex_eq_singleton.mpr honly]
  · intro i hverified
    cases hverified with
    | lineHash shape _ _ _ _ =>
      rw [shape] at hcolon
      exact hcolon (mem_append_right _ mem_cons_self)
    | hash _ _ bare =>
      rw [bare] at hline
      cases hline

variable {anchorOrRange : Text}

theorem rejectBareLineWriteAnchor_ok
    (h : rejectBareLineWriteAnchor endpoint anchorOrRange = .ok ()) :
    parseLine (trim endpoint) = none := by
  unfold rejectBareLineWriteAnchor at h
  split at h
  · cases h
  · next hline => simpa using hline

theorem verified_of_rejectBareLine (hbare : rejectBareLineWriteAnchor endpoint anchorOrRange = .ok ())
    (h : resolveStrict doc endpoint = .ok resolved) : Verified doc endpoint resolved.index := by
  rcases resolveStrict_ok h with hverified | ⟨hline, -⟩
  · exact hverified
  · rw [rejectBareLineWriteAnchor_ok hbare] at hline
    cases hline

/-- The endpoints of an anchor that may be a range. -/
def rangeEndpoints (anchorOrRange : Text) : Text × Text :=
  (splitRange anchorOrRange).getD (anchorOrRange, anchorOrRange)

theorem resolveAnchorOrRange_ok {first last : ℕ}
    (h : resolveAnchorOrRange doc anchorOrRange = .ok (first, last)) :
    Verified doc (rangeEndpoints anchorOrRange).1 first ∧
      Verified doc (rangeEndpoints anchorOrRange).2 last ∧ first ≤ last := by
  unfold resolveAnchorOrRange at h
  unfold rangeEndpoints
  rcases hsplit : splitRange anchorOrRange with - | ⟨left, right⟩
  · simp only [hsplit] at h
    obtain ⟨⟨⟩, hbare, h⟩ := bind_eq_ok.mp h
    obtain ⟨resolved, hresolved, h⟩ := bind_eq_ok.mp h
    cases h
    have hverified := verified_of_rejectBareLine hbare hresolved
    exact ⟨hverified, hverified, le_rfl⟩
  · simp only [hsplit] at h
    split at h
    · cases h
    obtain ⟨⟨⟩, hleft, h⟩ := bind_eq_ok.mp h
    obtain ⟨⟨⟩, hright, h⟩ := bind_eq_ok.mp h
    obtain ⟨first', hfirst, h⟩ := bind_eq_ok.mp h
    obtain ⟨last', hlast, h⟩ := bind_eq_ok.mp h
    split at h
    · cases h
    · next hle =>
      cases h
      exact ⟨verified_of_rejectBareLine hleft hfirst, verified_of_rejectBareLine hright hlast,
        Nat.le_of_not_lt hle⟩

/-! ### Writes -/

/-- The two endpoints of a write; those of a single anchor are the same. -/
def endpoints (args : HashlineArgs) : Option (Text × Text) :=
  match args.action with
  | .edit | .delete => args.anchor.map rangeEndpoints
  | .insert => args.anchor.map fun anchor => (anchor, anchor)
  | .read => none

/-- Both endpoints of a write are verified. -/
def EndpointsVerified (doc : Document) (args : HashlineArgs) : Prop :=
  ∃ left right first last, endpoints args = some (left, right) ∧ Verified doc left first ∧
    Verified doc right last

/-- An insertion at a number that is taken for a hash. -/
def InsertsAtNumber (doc : Document) (args : HashlineArgs) (content : Option Text) : Prop :=
  args.action = .insert ∧ content.isSome ∧
    ∃ anchor index, args.anchor = some anchor ∧ BareNumber doc anchor index

variable {args : HashlineArgs} {content : Option Text}

/-- What a mutation that succeeds had for an anchor. -/
theorem verified_of_applyMutation
    {changed : Changed} (h : applyMutation doc args content = .ok changed) :
    EndpointsVerified doc args ∨ InsertsAtNumber doc args content := by
  unfold applyMutation at h
  unfold EndpointsVerified InsertsAtNumber endpoints
  rcases haction : args.action with - | - | - | - <;> rw [haction] at h
  · cases h
  · -- edit
    obtain ⟨anchor, hanchor, h⟩ := bind_eq_ok.mp h
    obtain ⟨text, -, h⟩ := bind_eq_ok.mp h
    obtain ⟨⟨first, last⟩, hrange, -⟩ := bind_eq_ok.mp h
    obtain ⟨hleft, hright, -⟩ := resolveAnchorOrRange_ok hrange
    have hends := congrArg (Option.map rangeEndpoints) (elim_eq_ok.mp hanchor)
    exact .inl ⟨_, _, first, last, hends, hleft, hright⟩
  · -- insert
    obtain ⟨anchor, hanchor, h⟩ := bind_eq_ok.mp h
    obtain ⟨text, htext, h⟩ := bind_eq_ok.mp h
    obtain ⟨resolved, hresolved, -⟩ := bind_eq_ok.mp h
    have hanchor := elim_eq_ok.mp hanchor
    rcases resolveStrict_ok hresolved with hverified | hnumber
    · have hends := congrArg (Option.map fun anchor => (anchor, anchor)) hanchor
      exact .inl ⟨_, _, _, _, hends, hverified, hverified⟩
    · exact .inr ⟨rfl, by rw [elim_eq_ok.mp htext]; rfl, anchor, _, hanchor, hnumber⟩
  · -- delete
    obtain ⟨anchor, hanchor, h⟩ := bind_eq_ok.mp h
    obtain ⟨⟨first, last⟩, hrange, -⟩ := bind_eq_ok.mp h
    obtain ⟨hleft, hright, -⟩ := resolveAnchorOrRange_ok hrange
    have hends := congrArg (Option.map rangeEndpoints) (elim_eq_ok.mp hanchor)
    exact .inl ⟨_, _, first, last, hends, hleft, hright⟩

/-- An insertion at a number goes through. -/
theorem InsertsAtNumber.applyMutation (h : InsertsAtNumber doc args content) :
    (∃ changed, applyMutation doc args content = .ok changed) ∧ ¬ EndpointsVerified doc args := by
  obtain ⟨haction, hcontent, anchor, index, hanchor, hnumber⟩ := h
  obtain ⟨text, rfl⟩ := Option.isSome_iff_exists.mp hcontent
  obtain ⟨⟨hash, hresolves⟩, hnot⟩ := hnumber.resolves
  constructor
  · unfold Hashline.applyMutation
    simp only [haction, requireAnchor, hanchor, Option.elim_some, ok_bind, hresolves]
    exact ⟨_, rfl⟩
  · rintro ⟨left, right, first, last, hends, hleft, -⟩
    rw [endpoints, haction, hanchor] at hends
    cases hends
    exact hnot first hleft

/-- **Writes need a verified anchor, but for insertions at a number.**  A write that fails leaves
the document; one that succeeds had verified endpoints, exactly when it is no insertion whose
anchor is a line number that is taken for the hash of one line. -/
theorem write_verified_iff (doc : Document) (args : HashlineArgs) (content : Option Text) :
    let (result, after) := (applyMutationInPlace args content).run doc
    (∀ error, result = .error error → after = doc) ∧
      ((∀ report, result = .ok report → EndpointsVerified doc args) ↔
        ¬ InsertsAtNumber doc args content) := by
  rw [applyMutationInPlace_run]
  rcases hresult : applyMutation doc args content with error | changed
  · refine ⟨fun _ _ => rfl, fun _ hnumber => ?_, fun _ => nofun⟩
    obtain ⟨⟨changed, hchanged⟩, -⟩ := hnumber.applyMutation
    rw [hresult] at hchanged
    cases hchanged
  · refine ⟨nofun, fun hverified hnumber => ?_, fun hnumber _ _ => ?_⟩
    · exact hnumber.applyMutation.2 (hverified _ rfl)
    · exact (verified_of_applyMutation hresult).resolve_right hnumber

section Example

/-- An insertion at what could be the fifth line and is the hash of an empty one. -/
def insertAtFive : HashlineArgs := ⟨.insert, some ['0', '5'], some ['x'], false, none⟩

/-- In a file of two lines a line is put behind the second. -/
theorem inserted_at_five :
    (applyMutationInPlace insertAtFive (some ['x'])).run (.parse blankEnd) =
        (.ok (2, 2, "Inserted".toList), ⟨[['a'], [], ['x']], .lf, true⟩) ∧
      parseLine ['0', '5'] = some 5 ∧ ¬ EndpointsVerified (.parse blankEnd) insertAtFive := by
  refine ⟨?_, by decide, ?_⟩
  · rw [applyMutationInPlace_run]
    rfl
  have hhash : parseHash ['0', '5'] ['0', '5'] = .ok (.short 5) := by decide
  have honly : (Document.parse blankEnd).OnlyLine (.short 5) 1 :=
    hashIndex_eq_singleton.mp (by decide +kernel)
  have hnumber : BareNumber (.parse blankEnd) ['0', '5'] 1 := by
    exact ⟨by decide, .short 5, hhash, honly⟩
  have hinserts : InsertsAtNumber (.parse blankEnd) insertAtFive (some ['x']) :=
    ⟨rfl, rfl, ['0', '5'], 1, rfl, hnumber⟩
  exact hinserts.applyMutation.2

end Example

end Hashline

end CodexPlus
