/-
CodexPlus/Enclosure.lean

Marks that may not stand inside a bracket: a sequence of marks opens and closes
one bracket, and some marks must stay outside of it.

`Outside` says so for the whole sequence; `run` watches the sequence from left to
right and stops at the first mark that stands inside.
-/
import Mathlib.Data.List.Basic

namespace CodexPlus

namespace Enclosure

inductive Mark where
  | opens
  | closes
  /-- Must not stand inside the bracket. -/
  | guarded
  | other
  deriving DecidableEq, Repr

/-- Between an opening and a guarded mark behind it the bracket is closed. -/
def Outside (marks : List Mark) : Prop :=
  ∀ before between after, marks = before ++ .opens :: (between ++ .guarded :: after) →
    .closes ∈ between

/-- The same with the bracket open from the start. -/
def Clear (marks : List Mark) : Prop :=
  ∀ between after, marks = between ++ .guarded :: after → .closes ∈ between

/-- One mark: whether the bracket is open behind it. -/
def watch (isOpen : Bool) : Mark → Option Bool
  | .opens => some true
  | .closes => some false
  | .guarded => if isOpen then none else some false
  | .other => some isOpen

def run (isOpen : Bool) (marks : List Mark) : Option Bool := marks.foldlM watch isOpen

variable (isOpen : Bool)

@[simp] theorem run_nil : run isOpen [] = some isOpen := rfl

variable (m : Mark)

@[simp] theorem run_cons (marks : List Mark) :
    run isOpen (m :: marks) = (watch isOpen m).bind (run · marks) := rfl

theorem run_append (marks more : List Mark) :
    run isOpen (marks ++ more) = (run isOpen marks).bind (run · more) := by
  simp [run, List.foldlM_append]

theorem clear_cons (marks : List Mark) :
    Clear (m :: marks) ↔ m ≠ .guarded ∧ (m = .closes ∨ Clear marks) := by
  constructor
  · intro h
    refine ⟨?_, ?_⟩
    · rintro rfl
      exact absurd (h [] marks rfl) List.not_mem_nil
    · by_cases hm : m = .closes
      · exact .inl hm
      · refine .inr fun between after heq => ?_
        have hmem := h (m :: between) after (congrArg (m :: ·) heq)
        exact (List.mem_cons.mp hmem).resolve_left fun h => hm h.symm
  · rintro ⟨hne, hclear⟩ between after heq
    rcases between with _ | ⟨first, between⟩
    · exact absurd (List.cons.inj heq).1 hne
    · obtain ⟨rfl, hrest⟩ := List.cons.inj heq
      rcases hclear with rfl | hclear
      · exact List.mem_cons_self
      · exact List.mem_cons_of_mem _ (hclear between after hrest)

theorem outside_cons (marks : List Mark) :
    Outside (m :: marks) ↔ (m = .opens → Clear marks) ∧ Outside marks := by
  constructor
  · intro h
    refine ⟨?_, fun before between after heq => h (m :: before) between after (congrArg (m :: ·) heq)⟩
    rintro rfl between after heq
    exact h [] between after (congrArg (Mark.opens :: ·) heq)
  · rintro ⟨hclear, houtside⟩ before between after heq
    rcases before with _ | ⟨first, before⟩
    · obtain ⟨hm, heq⟩ := List.cons.inj heq
      exact hclear hm between after heq
    · obtain ⟨-, heq⟩ := List.cons.inj heq
      exact houtside before between after heq

theorem clear_nil : Clear [] := by
  intro between after heq
  rcases between with _ | ⟨first, between⟩ <;> cases heq

theorem outside_nil : Outside [] := by
  intro before between after heq
  rcases before with _ | ⟨first, before⟩ <;> cases heq

variable (marks : List Mark)

theorem run_isSome_iff : (run isOpen marks).isSome ↔ (isOpen → Clear marks) ∧ Outside marks := by
  induction marks generalizing isOpen with
  | nil => simp [clear_nil, outside_nil]
  | cons m marks ih =>
    rw [clear_cons, outside_cons]
    cases m with
    | opens =>
      show (run true marks).isSome = true ↔ _
      rw [ih]
      simp only [forall_const, ne_eq, reduceCtorEq, not_false_eq_true, false_or, true_and]
      exact ⟨fun h => ⟨fun _ => h.1, h⟩, fun h => h.2⟩
    | closes =>
      show (run false marks).isSome = true ↔ _
      rw [ih]
      simp
    | guarded =>
      cases isOpen with
      | true => simp [watch]
      | false =>
        show (run false marks).isSome = true ↔ _
        rw [ih]
        simp
    | other =>
      show (run isOpen marks).isSome = true ↔ _
      rw [ih]
      simp

/-- **Watching finds the first mark that stands inside.** -/
theorem outside_iff : Outside marks ↔ (run false marks).isSome := by
  rw [run_isSome_iff]
  simp

end Enclosure

end CodexPlus
