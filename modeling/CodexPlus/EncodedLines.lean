/-
CodexPlus/EncodedLines.lean

The lines of an encoded text, over any alphabet and any code.

A text is encoded symbol by symbol.  When the code writes the line end as one
code unit that no other symbol uses (`Marks`), the lines of the encoded text are
the encoded lines of the text, and a last symbol can be taken off before or after
encoding.
-/
import CodexPlus.LineLog

namespace EncodedLines

open List

variable {α β : Type*}

/-- Every symbol is written; the code writes `a` as `b` alone, and nothing else with `b`. -/
structure Marks (code : α → List β) (a : α) (b : β) : Prop where
  nonempty : ∀ c, code c ≠ []
  self : code a = [b]
  other : ∀ c, c ≠ a → b ∉ code c

/-- A list without its last element, if that is `a`. -/
def popLast [DecidableEq α] (a : α) (l : List α) : List α :=
  if l.getLast? = some a then l.dropLast else l

/-- A text is one line, or a line, a line end and a text. -/
@[elab_as_elim]
theorem line_induction {motive : List α → Prop} (a : α) (last : ∀ line, a ∉ line → motive line)
    (cons : ∀ line rest, a ∉ line → motive rest → motive (line ++ a :: rest)) (l : List α) :
    motive l := by
  by_cases ha : a ∈ l
  · obtain ⟨line, rest, rfl, hline⟩ := eq_append_cons_of_mem ha
    exact cons line rest hline (line_induction a last cons rest)
  · exact last l ha
termination_by l.length
decreasing_by grind

variable [DecidableEq α] {code : α → List β} {a : α} {b : β}

@[simp] theorem popLast_nil (a : α) : popLast a [] = [] := rfl

@[simp] theorem popLast_concat (a : α) (l : List α) : popLast a (l ++ [a]) = l := by
  rw [popLast, getLast?_concat, if_pos rfl, dropLast_concat]

theorem popLast_of_ne {l : List α} (h : l.getLast? ≠ some a) : popLast a l = l := if_neg h

theorem popLast_cons (a c : α) {l : List α} (h : l ≠ []) :
    popLast a (c :: l) = c :: popLast a l := by
  unfold popLast
  rw [getLast?_cons_of_ne_nil h, dropLast_cons_of_ne_nil h]
  split <;> rfl

theorem popLast_cases (a : α) (l : List α) :
    l.getLast? ≠ some a ∧ popLast a l = l ∨ ∃ init, l = init ++ [a] ∧ popLast a l = init := by
  by_cases h : l.getLast? = some a
  · obtain ⟨init, rfl⟩ := getLast?_eq_some_iff.mp h
    exact .inr ⟨init, rfl, popLast_concat a init⟩
  · exact .inl ⟨h, popLast_of_ne h⟩

theorem popLast_isPrefix (a : α) (l : List α) : popLast a l <+: l := by
  rcases popLast_cases a l with ⟨-, heq⟩ | ⟨init, rfl, heq⟩
  · exact ⟨[], by rw [heq, append_nil]⟩
  · exact ⟨[a], by rw [heq]⟩

theorem mem_of_mem_popLast {c : α} {l : List α} (h : c ∈ popLast a l) : c ∈ l :=
  (popLast_isPrefix a l).subset h

variable [DecidableEq β]

theorem popLast_flatMap (h : Marks code a b) (l : List α) :
    popLast b (l.flatMap code) = (popLast a l).flatMap code := by
  rcases popLast_cases a l with ⟨hne, heq⟩ | ⟨init, rfl, heq⟩
  · rw [heq]
    refine popLast_of_ne fun hlast => ?_
    rcases l.eq_nil_or_concat with rfl | ⟨init, c, rfl⟩
    · cases hlast
    -- the last unit belongs to the last symbol
    rw [concat_eq_append] at hne hlast
    have hc : c ≠ a := fun hca => hne (by rw [getLast?_concat, hca])
    rw [flatMap_append, flatMap_singleton, getLast?_append_of_ne_nil _ (h.nonempty c)] at hlast
    exact h.other c hc (mem_of_getLast? hlast)
  · rw [heq, flatMap_append, flatMap_singleton, h.self, popLast_concat]

/-- The lines of the encoded text are the encoded lines. -/
theorem splitOn_flatMap (h : Marks code a b) (l : List α) :
    (l.flatMap code).splitOn b = (l.splitOn a).map (·.flatMap code) := by
  have hcode : ∀ line : List α, a ∉ line → b ∉ line.flatMap code := fun line hline hmem => by
    obtain ⟨c, hc, hb⟩ := mem_flatMap.mp hmem
    exact h.other c (fun hca => hline (hca ▸ hc)) hb
  induction l using line_induction (a := a) with
  | last line hline =>
    rw [splitOn_eq_singleton (hcode line hline), splitOn_eq_singleton hline]
    rfl
  | cons line _ hline ih =>
    rw [flatMap_append, flatMap_cons, h.self, singleton_append,
      splitOn_append_cons_self_of_not_mem (hcode line hline),
      splitOn_append_cons_self_of_not_mem hline, ih]
    rfl

end EncodedLines
