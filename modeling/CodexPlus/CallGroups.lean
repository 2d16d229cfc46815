/-
CodexPlus/CallGroups.lean

The protocol of grouped calls: calls are collected, together with what the
caller says in between, until the first answer arrives; then nothing but the
answers to the collected calls may follow until all of them are there.

A checker reads one token at a time.  `draining []` is its resting state, and
a sequence is accepted when the checker ends there.
-/
import Mathlib.Data.List.Basic
import Mathlib.Data.List.Induction
import Mathlib.Data.List.Nodup
import Mathlib.Data.List.Perm.Subperm

namespace CodexPlus

open List

namespace CallGroups

variable {ι : Type}

inductive Token (ι : Type) where
  | call (id : ι)
  | output (id : ι)
  /-- Said by the caller: may stand among the calls of a group. -/
  | assistant
  /-- Thought by the caller: may also stand among the answers. -/
  | reasoning
  /-- Ends the collection of calls and leaves no trace. -/
  | cut
  /-- Anything else: only allowed while no call is open. -/
  | other
  deriving DecidableEq, Repr

/-- The id of a call. -/
def Token.callId : Token ι → Option ι
  | .call id => some id
  | _ => none

inductive State (ι : Type) where
  | collecting (calls : List ι)
  | draining (calls : List ι)
  deriving DecidableEq, Repr

/-! ### A row of calls, some answered on the spot

The flag of a call says whether its answer comes later. -/

def rowTokens (row : List (ι × Bool)) : List (Token ι) :=
  row.flatMap fun x => if x.2 then [.call x.1] else [.call x.1, .output x.1]

/-- The calls of a row whose answers come later. -/
def awaited (row : List (ι × Bool)) : List ι := (row.filter (·.2)).map (·.1)

/-- No call is answered on the spot behind one whose answer comes later. -/
def Orderly (row : List (ι × Bool)) : Prop :=
  row.Pairwise fun x y => x.2 = true → y.2 = true

variable (row : List (ι × Bool)) (x : ι × Bool)

theorem rowTokens_concat : rowTokens (row ++ [x]) = rowTokens row ++ rowTokens [x] := by
  simp [rowTokens]

theorem awaited_concat : awaited (row ++ [x]) = awaited row ++ if x.2 then [x.1] else [] := by
  rcases x with ⟨id, - | -⟩ <;> simp [awaited]

theorem orderly_concat : Orderly (row ++ [x]) ↔ Orderly row ∧ (x.2 ∨ awaited row = []) := by
  rw [Orderly, pairwise_append]
  refine and_congr_right fun _ => ?_
  rcases x with ⟨id, - | -⟩ <;> simp [awaited]

variable {id : ι} {calls : List ι} {tokens : List (Token ι)} {row : List (ι × Bool)}

theorem mem_of_mem_awaited (h : id ∈ awaited row) : id ∈ row.map (·.1) := by
  obtain ⟨x, hx, rfl⟩ := mem_map.mp h
  exact mem_map_of_mem (mem_of_mem_filter hx)

/-! ### The checker -/

variable [DecidableEq ι]

/-- One token; `valid` says which ids a call may have. -/
def step (valid : ι → Bool) : State ι → Token ι → Option (State ι)
  | .draining calls, .call id =>
    if calls = [] ∧ valid id = true then some (.collecting [id]) else none
  | .draining calls, .output id =>
    if id ∈ calls then some (.draining (calls.erase id)) else none
  | .draining calls, .reasoning | .draining calls, .cut => some (.draining calls)
  | .draining calls, .assistant | .draining calls, .other =>
    if calls = [] then some (.draining []) else none
  | .collecting calls, .call id =>
    if valid id = true ∧ id ∉ calls then some (.collecting (calls ++ [id])) else none
  | .collecting calls, .output id =>
    if id ∈ calls then some (.draining (calls.erase id)) else none
  | .collecting calls, .assistant | .collecting calls, .reasoning => some (.collecting calls)
  | .collecting calls, .cut => some (.draining calls)
  | .collecting _, .other => none

def run (valid : ι → Bool) (s : State ι) (tokens : List (Token ι)) : Option (State ι) :=
  tokens.foldlM (step valid) s

def Accepts (valid : ι → Bool) (s : State ι) (tokens : List (Token ι)) : Prop :=
  run valid s tokens = some (.draining [])

instance (valid : ι → Bool) (s : State ι) (tokens : List (Token ι)) :
    Decidable (Accepts valid s tokens) :=
  inferInstanceAs (Decidable (_ = _))

variable {valid : ι → Bool} (s : State ι)

@[simp] theorem run_nil : run valid s [] = some s := rfl

@[simp] theorem run_cons (t : Token ι) (tokens : List (Token ι)) :
    run valid s (t :: tokens) = (step valid s t).bind (run valid · tokens) := rfl

theorem run_append (tokens tokens' : List (Token ι)) :
    run valid s (tokens ++ tokens') = (run valid s tokens).bind (run valid · tokens') := by
  simp [run, foldlM_append]

variable {tokens tokens' : List (Token ι)} {s s' : State ι}

/-- Reading on from where the first part ends. -/
theorem accepts_append_iff (h : run valid s tokens = some s') :
    Accepts valid s (tokens ++ tokens') ↔ Accepts valid s' tokens' := by
  rw [Accepts, run_append, h, Option.bind_some, Accepts]

theorem not_accepts_append
    (h : run valid s tokens = none) : ¬ Accepts valid s (tokens ++ tokens') := by
  rw [Accepts, run_append, h]
  simp

/-- The steps of the checker, one constructor for each. -/
inductive Moves (valid : ι → Bool) : State ι → Token ι → State ι → Prop
  | opens {id : ι} (hvalid : valid id = true) :
    Moves valid (.draining []) (.call id) (.collecting [id])
  | calls {calls : List ι} {id : ι} (hvalid : valid id = true) (hid : id ∉ calls) :
    Moves valid (.collecting calls) (.call id) (.collecting (calls ++ [id]))
  | firstOutput {calls : List ι} {id : ι} (hid : id ∈ calls) :
    Moves valid (.collecting calls) (.output id) (.draining (calls.erase id))
  | nextOutput {calls : List ι} {id : ι} (hid : id ∈ calls) :
    Moves valid (.draining calls) (.output id) (.draining (calls.erase id))
  | speaks : Moves valid (.draining []) .assistant (.draining [])
  | other : Moves valid (.draining []) .other (.draining [])
  | thinks (calls : List ι) : Moves valid (.draining calls) .reasoning (.draining calls)
  | passes (calls : List ι) : Moves valid (.draining calls) .cut (.draining calls)
  | joins {calls : List ι} {t : Token ι} (ht : t = .assistant ∨ t = .reasoning) :
    Moves valid (.collecting calls) t (.collecting calls)
  | cuts (calls : List ι) : Moves valid (.collecting calls) .cut (.draining calls)

theorem moves_of_step {t : Token ι} (h : step valid s t = some s') : Moves valid s t s' := by
  rcases s with calls | calls <;> rcases t with id | id | _ | _ | _ | _ <;> rw [step] at h
  · obtain ⟨hgood, ⟨⟩⟩ := Option.ite_none_right_eq_some.mp h
    exact .calls hgood.1 hgood.2
  · obtain ⟨hid, ⟨⟩⟩ := Option.ite_none_right_eq_some.mp h
    exact .firstOutput hid
  · cases h
    exact .joins (.inl rfl)
  · cases h
    exact .joins (.inr rfl)
  · cases h
    exact .cuts calls
  · cases h
  · obtain ⟨⟨rfl, hvalid⟩, ⟨⟩⟩ := Option.ite_none_right_eq_some.mp h
    exact .opens hvalid
  · obtain ⟨hid, ⟨⟩⟩ := Option.ite_none_right_eq_some.mp h
    exact .nextOutput hid
  · obtain ⟨rfl, ⟨⟩⟩ := Option.ite_none_right_eq_some.mp h
    exact .speaks
  · cases h
    exact .thinks calls
  · cases h
    exact .passes calls
  · obtain ⟨rfl, ⟨⟩⟩ := Option.ite_none_right_eq_some.mp h
    exact .other

/-! ### Answers and thoughts -/

variable {calls ids : List ι}

/-- Answers to open calls, each to its own. -/
theorem run_outputs (h : ids.Subperm calls) :
    run valid (.draining calls) (ids.map .output) = some (.draining (calls.diff ids)) := by
  induction ids generalizing calls with
  | nil => rfl
  | cons id ids ih =>
    have hmem : id ∈ calls := h.subset mem_cons_self
    have hrest : ids.Subperm (calls.erase id) := by
      have := h.erase id
      rwa [erase_cons_head] at this
    rw [map_cons, run_cons, step, if_pos hmem, Option.bind_some, ih hrest, diff_cons]

/-- The first answer ends the collection. -/
theorem run_collecting_outputs (hne : ids ≠ []) :
    run valid (.collecting calls) (ids.map .output)
      = run valid (.draining calls) (ids.map .output) := by
  obtain ⟨id, ids, rfl⟩ := exists_cons_of_ne_nil hne
  rfl

theorem run_draining_reasoning (h : ∀ t ∈ tokens, t = .reasoning) :
    run valid (.draining calls) tokens = some (.draining calls) := by
  induction tokens with
  | nil => rfl
  | cons _ _ ih =>
    obtain ⟨rfl, hrest⟩ := forall_mem_cons.mp h
    exact ih hrest

/-- While no call is open, or while calls are collected, everything the caller says is allowed. -/
theorem run_said (hs : ∀ calls, s = .draining calls → calls = []) (h : ∀ t ∈ tokens, t = .assistant ∨ t = .reasoning) :
    run valid s tokens = some s := by
  induction tokens with
  | nil => rfl
  | cons t _ ih =>
    obtain ⟨ht, hrest⟩ := forall_mem_cons.mp h
    have hstep : step valid s t = some s := by
      rcases s with calls | calls
      · rcases ht with rfl | rfl <;> rfl
      · cases hs calls rfl
        rcases ht with rfl | rfl <;> rfl
    rw [run_cons, hstep, Option.bind_some, ih hrest]

/-- While calls are open, the caller may think but not speak. -/
theorem run_draining_said (hne : calls ≠ []) (h : ∀ t ∈ tokens, t = .assistant ∨ t = .reasoning) :
    run valid (.draining calls) tokens
      = if .assistant ∈ tokens then none else some (.draining calls) := by
  induction tokens with
  | nil => rfl
  | cons _ _ ih =>
    obtain ⟨ht, hrest⟩ := forall_mem_cons.mp h
    rcases ht with rfl | rfl
    · simp [step, hne]
    · simp [step, ih hrest]

/-- While calls are open, the first thing that is neither a thought nor an answer is refused. -/
theorem run_draining_eq_none (hne : calls ≠ []) {before after : List (Token ι)}
    {t : Token ι} (hbefore : ∀ u ∈ before, u = .reasoning)
    (ht : t = .assistant ∨ t = .other ∨ ∃ id, t = .call id) :
    run valid (.draining calls) (before ++ t :: after) = none := by
  rw [run_append, run_draining_reasoning hbefore, Option.bind_some, run_cons]
  have hstep : step valid (.draining calls) t = none := by
    rcases ht with rfl | rfl | ⟨id, rfl⟩ <;> simp [step, hne]
  rw [hstep]
  rfl

/-! ### Reading a row -/

def opening (calls : List ι) : State ι := if calls = [] then .draining [] else .collecting calls

theorem step_opening_call (hvalid : valid id) (hid : id ∉ calls) :
    step valid (opening calls) (.call id) = some (.collecting (calls ++ [id])) := by
  unfold opening
  split
  · next hnil => simp [step, hnil, hvalid]
  · simp [step, hid, hvalid]

/-- The calls of a block, with what is said between them. -/
theorem run_opening_block (hcalls : ∀ id, .call id ∈ tokens → valid id)
    (htokens : ∀ t ∈ tokens, t = .assistant ∨ t = .reasoning ∨ ∃ id, t = .call id)
    (hnodup : (calls ++ tokens.filterMap Token.callId).Nodup) :
    run valid (opening calls) tokens
      = some (opening (calls ++ tokens.filterMap Token.callId)) := by
  induction tokens generalizing calls with
  | nil => rw [run_nil, filterMap_nil, append_nil]
  | cons t tokens ih =>
    obtain ⟨ht, hrest⟩ := forall_mem_cons.mp htokens
    have hcalls' : ∀ id, .call id ∈ tokens → valid id = true := fun id hid =>
      hcalls id (mem_cons_of_mem _ hid)
    -- what is said changes neither the state nor the calls
    have hsaid : step valid (opening calls) t = some (opening calls) → Token.callId t = none →
        run valid (opening calls) (t :: tokens)
          = some (opening (calls ++ (t :: tokens).filterMap Token.callId)) := by
      intro hstep hnone
      rw [filterMap_cons_none hnone] at hnodup ⊢
      rw [run_cons, hstep, Option.bind_some, ih hcalls' hrest hnodup]
    rcases ht with rfl | rfl | ⟨id, rfl⟩
    · refine hsaid ?_ rfl
      by_cases hnil : calls = [] <;> simp [opening, hnil, step]
    · refine hsaid ?_ rfl
      by_cases hnil : calls = [] <;> simp [opening, hnil, step]
    · rw [filterMap_cons_some (show Token.callId (.call id) = some id from rfl)] at hnodup ⊢
      have hid : id ∉ calls := fun hmem =>
        (nodup_append.mp hnodup).2.2 id hmem id mem_cons_self rfl
      have hopen : opening (calls ++ [id]) = .collecting (calls ++ [id]) := if_neg (by simp)
      rw [append_cons] at hnodup ⊢
      rw [run_cons, step_opening_call (hcalls id mem_cons_self) hid, Option.bind_some,
        ← hopen, ih hcalls' hrest hnodup]

/-- Answers to all the calls of a block, one each. -/
theorem run_opening_outputs (hcalls : calls.Nodup) (hids : ids.Nodup)
    (hmem : ∀ id, id ∈ ids ↔ id ∈ calls) :
    run valid (opening calls) (ids.map .output) = some (.draining []) := by
  have hperm : ids.Perm calls := (perm_ext_iff_of_nodup hids hcalls).mpr hmem
  have hdone : calls.diff ids = [] := by
    refine eq_nil_iff_forall_not_mem.mpr fun id hid => ?_
    rw [hcalls.mem_sdiff_iff] at hid
    exact hid.2 ((hmem id).mpr hid.1)
  rw [opening]
  split
  · next hnil =>
    subst hnil
    rw [perm_nil.mp hperm]
    rfl
  · next hne =>
    have hne' : ids ≠ [] := fun hnil => hne (perm_nil.mp (hnil ▸ hperm.symm))
    rw [run_collecting_outputs hne', run_outputs hperm.subperm, hdone]

/-- One more call of a row: collected, or closed again at once. -/
theorem run_opening_row (hvalid : valid id) (hid : id ∉ calls) (later : Bool) :
    run valid (opening calls) (rowTokens [(id, later)])
      = some (if later then .collecting (calls ++ [id]) else .draining calls) := by
  rcases later with - | -
  · have hrow : rowTokens [(id, false)] = [.call id, .output id] := rfl
    have hmem : id ∈ calls ++ [id] := by simp
    rw [hrow, run_cons, step_opening_call hvalid hid, Option.bind_some, run_cons, step, if_pos hmem,
      erase_append_right _ hid, erase_cons_head, append_nil]
    rfl
  · have hrow : rowTokens [(id, true)] = [.call id] := rfl
    rw [hrow, run_cons, step_opening_call hvalid hid]
    rfl

/-- **A row of calls**: it is read as one group if it is orderly, its last call aside; a last call
answered on the spot ends the collection. -/
theorem run_rowTokens (hvalid : ∀ x ∈ row, valid x.1) (hnodup : (row.map (·.1)).Nodup) :
    (Orderly row → run valid (.draining []) (rowTokens row) = some (opening (awaited row))) ∧
    (¬ Orderly row → Orderly row.dropLast →
      run valid (.draining []) (rowTokens row) = some (.draining (awaited row)) ∧
        awaited row ≠ []) ∧
    (¬ Orderly row.dropLast → run valid (.draining []) (rowTokens row) = none) := by
  induction row using List.reverseRecOn with
  | nil => exact ⟨fun _ => rfl, fun h => absurd List.Pairwise.nil h,
      fun h => absurd List.Pairwise.nil h⟩
  | append_singleton row x ih =>
    rcases x with ⟨id, later⟩
    rw [map_append, map_cons, nodup_append] at hnodup
    obtain ⟨hnodup, -, hfresh⟩ := hnodup
    have hmem : id ∉ awaited row := fun hmem =>
      hfresh id (mem_of_mem_awaited hmem) id (by simp) rfl
    have hid := run_opening_row (hvalid (id, later) (by simp)) hmem later
    obtain ⟨horderly, hlast, hbad⟩ := ih (fun y hy => hvalid y (by simp [hy])) hnodup
    rw [dropLast_concat, orderly_concat, rowTokens_concat, run_append, awaited_concat]
    refine ⟨?_, ?_, ?_⟩
    · rintro ⟨hrow, hlater⟩
      rw [horderly hrow, Option.bind_some, hid]
      rcases later with - | -
      · -- answered on the spot while nothing is open
        have hnil : awaited row = [] := by simpa using hlater
        simp [hnil, opening]
      · simp [opening]
    · intro hnot hrow
      have hlater : later = false ∧ awaited row ≠ [] := by simpa [hrow, not_or] using hnot
      obtain ⟨rfl, hne⟩ := hlater
      rw [horderly hrow, Option.bind_some, hid]
      simpa using hne
    · intro hrow
      -- the row so far has stopped, or waits for answers and takes no further call
      have hrun : run valid (.draining []) (rowTokens row) = none ∨
          ∃ calls, calls ≠ [] ∧ run valid (.draining []) (rowTokens row) = some (.draining calls) := by
        by_cases hrow' : Orderly row.dropLast
        · exact .inr ⟨_, (hlast hrow hrow').2, (hlast hrow hrow').1⟩
        · exact .inl (hbad hrow')
      rcases hrun with hrun | ⟨calls, hne, hrun⟩
      · rw [hrun]
        rfl
      · rw [hrun]
        rcases later with - | - <;> simp [rowTokens, step, hne]

end CallGroups

end CodexPlus
