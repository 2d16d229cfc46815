/-
CodexPlus/StreamSearch.lean

Searching for a word in a text that arrives in pieces, over any alphabet.

`find needle text` is where the word first stands, and `overlap needle text` how much
of the word the text ends with.  When the word does not stand in what arrived so far,
all but the overlap can be given up: with the rest of the text, the word is found where
it is found behind the overlap (`find_append`), and the overlap is the same
(`overlap_append`).
-/
import Mathlib.Data.List.Infix
import Mathlib.Data.List.TakeDrop

namespace StreamSearch

open List

variable {α : Type*} [DecidableEq α] {needle s t : List α}

/-- The first place where the needle stands. -/
def find (needle : List α) : List α → Option ℕ
  | [] => if needle = [] then some 0 else none
  | c :: rest => if needle <+: c :: rest then some 0 else (find needle rest).map (· + 1)

/-- The longest proper part of the needle, of at most `k` symbols, that the text ends with. -/
def overlapUpTo (needle s : List α) : ℕ → ℕ
  | 0 => 0
  | k + 1 => if needle.take (k + 1) <:+ s then k + 1 else overlapUpTo needle s k

/-- The longest proper part of the needle that the text ends with. -/
def overlap (needle s : List α) : ℕ := overlapUpTo needle s (min s.length (needle.length - 1))

/-! ### Finding -/

theorem find_of_start (h : needle <+: s) : find needle s = some 0 := by
  cases s with
  | nil => rw [find, if_pos (prefix_nil.mp h)]
  | cons => rw [find, if_pos h]

theorem find_cons_of_not {c : α} (h : ¬ needle <+: c :: s) :
    find needle (c :: s) = (find needle s).map (· + 1) := by
  rw [find, if_neg h]

/-- What is found is the needle, and there is none before it. -/
theorem find_eq_some {i : ℕ} :
    find needle s = some i ↔
      i ≤ s.length ∧ needle <+: s.drop i ∧ ∀ j < i, ¬ needle <+: s.drop j := by
  induction s generalizing i with
  | nil =>
    rw [find]
    by_cases h : needle = []
    · rw [if_pos h, Option.some.injEq]
      constructor
      · rintro rfl
        exact ⟨le_rfl, h ▸ nil_prefix, fun j hj => absurd hj (Nat.not_lt_zero j)⟩
      · rintro ⟨hi, -⟩
        exact (Nat.le_zero.mp hi).symm
    · rw [if_neg h]
      refine ⟨nofun, fun ⟨_, hstands, _⟩ => absurd ?_ h⟩
      rwa [drop_nil, prefix_nil] at hstands
  | cons c rest ih =>
    by_cases h : needle <+: c :: rest
    · rw [find_of_start h, Option.some.injEq]
      constructor
      · rintro rfl
        exact ⟨Nat.zero_le _, h, fun j hj => absurd hj (Nat.not_lt_zero j)⟩
      · rintro ⟨-, -, hfirst⟩
        by_contra hi
        exact hfirst 0 (Nat.pos_of_ne_zero (Ne.symm hi)) h
    · rw [find_cons_of_not h, Option.map_eq_some_iff]
      constructor
      · rintro ⟨j, hj, rfl⟩
        obtain ⟨hle, hstands, hfirst⟩ := ih.mp hj
        refine ⟨Nat.succ_le_succ hle, hstands, fun k hk => ?_⟩
        cases k with
        | zero => exact h
        | succ k => exact hfirst k (Nat.lt_of_succ_lt_succ hk)
      · rintro ⟨hle, hstands, hfirst⟩
        cases i with
        | zero => exact absurd hstands h
        | succ i =>
          refine ⟨i, ih.mpr ⟨Nat.le_of_succ_le_succ hle, hstands, fun j hj => ?_⟩, rfl⟩
          exact hfirst (j + 1) (Nat.succ_lt_succ hj)

theorem find_eq_none : find needle s = none ↔ ∀ j ≤ s.length, ¬ needle <+: s.drop j := by
  induction s with
  | nil =>
    rw [find]
    by_cases h : needle = [] <;> simp [h]
  | cons c rest ih =>
    by_cases h : needle <+: c :: rest
    · rw [find_of_start h]
      exact ⟨nofun, fun hnone => absurd h (hnone 0 (Nat.zero_le _))⟩
    rw [find_cons_of_not h, Option.map_eq_none_iff, ih]
    constructor
    · intro hrest j hj
      cases j with
      | zero => exact h
      | succ j => exact hrest j (Nat.le_of_succ_le_succ hj)
    · intro hall j hj
      exact hall (j + 1) (Nat.succ_le_succ hj)

/-- What comes behind does not change what is found. -/
theorem find_append_of_some {i : ℕ} (h : find needle s = some i) (t : List α) :
    find needle (s ++ t) = some i := by
  obtain ⟨hle, hstands, hfirst⟩ := find_eq_some.mp h
  have hlength : i + needle.length ≤ s.length := by
    have := hstands.length_le
    rw [length_drop] at this
    omega
  refine find_eq_some.mpr ⟨by rw [length_append]; omega, ?_, fun j hj hat => ?_⟩
  · rw [drop_append_of_le_length hle]
    exact hstands.trans (prefix_append _ _)
  · -- an earlier one would end before the end of the first text
    rw [drop_append_of_le_length (by omega)] at hat
    refine hfirst j hj (prefix_of_prefix_length_le hat (prefix_append _ _) ?_)
    rw [length_drop]
    omega

/-- Symbols at which the needle does not stand can be left out. -/
theorem find_drop {n : ℕ} (hn : n ≤ s.length) (h : ∀ j < n, ¬ needle <+: s.drop j) :
    find needle s = (find needle (s.drop n)).map (n + ·) := by
  induction n generalizing s with
  | zero => simp
  | succ n ih =>
    cases s with
    | nil => exact absurd hn (Nat.not_succ_le_zero n)
    | cons =>
      have hrest := ih (Nat.le_of_succ_le_succ hn)
        fun j hj => h (j + 1) (Nat.succ_lt_succ hj)
      rw [find_cons_of_not (h 0 (Nat.succ_pos n)), hrest, Option.map_map]
      refine congrFun (congrArg _ (funext fun i => ?_)) _
      show n + i + 1 = n + 1 + i
      omega

/-! ### Overlap -/

theorem overlapUpTo_le (k : ℕ) : overlapUpTo needle s k ≤ k := by
  induction k with
  | zero => exact le_rfl
  | succ k ih =>
    rw [overlapUpTo]
    split
    · exact le_rfl
    · exact Nat.le_succ_of_le ih

theorem overlapUpTo_suffix (k : ℕ) : needle.take (overlapUpTo needle s k) <:+ s := by
  induction k with
  | zero => exact nil_suffix
  | succ k ih =>
    rw [overlapUpTo]
    split
    · assumption
    · exact ih

theorem le_overlapUpTo {k j : ℕ} (hj : j ≤ k) (h : needle.take j <:+ s) :
    j ≤ overlapUpTo needle s k := by
  induction k with
  | zero => exact hj
  | succ k ih =>
    rw [overlapUpTo]
    split
    · exact hj
    · next hnot =>
      rcases Nat.lt_or_eq_of_le hj with hlt | rfl
      · exact ih (Nat.le_of_lt_succ hlt)
      · exact absurd h hnot

theorem overlap_le : overlap needle s ≤ s.length :=
  (overlapUpTo_le _).trans (Nat.min_le_left _ _)

theorem overlap_lt (hne : needle ≠ []) : overlap needle s < needle.length := by
  have hpos := length_pos_of_ne_nil hne
  have hle : overlap needle s ≤ needle.length - 1 :=
    (overlapUpTo_le _).trans (Nat.min_le_right _ _)
  omega

theorem overlap_suffix : needle.take (overlap needle s) <:+ s := overlapUpTo_suffix _

theorem le_overlap {j : ℕ} (hj : j < needle.length) (h : needle.take j <:+ s) :
    j ≤ overlap needle s := by
  refine le_overlapUpTo ?_ h
  have hlength := h.length_le
  rw [length_take] at hlength
  omega

/-- A text that is a proper part of the needle from some place on is in the overlap. -/
theorem le_overlap_of_part {j : ℕ} (hlt : s.length - j < needle.length)
    (h : s.drop j <+: needle) : s.length - j ≤ overlap needle s := by
  refine le_overlap hlt ?_
  have htake : needle.take (s.length - j) = s.drop j := by
    have := prefix_iff_eq_take.mp h
    rw [length_drop] at this
    exact this.symm
  rw [htake]
  exact drop_suffix _ _

/-! ### A text in two pieces -/

/-- The part of the first piece that has to be kept. -/
def kept (needle s : List α) : List α := s.drop (s.length - overlap needle s)

/-- Before the overlap, neither the needle nor a part of it at the end begins. -/
theorem not_prefix_append (hnone : find needle s = none) (t : List α) {j : ℕ}
    (hj : j < s.length - overlap needle s) :
    ¬ needle <+: (s ++ t).drop j ∧ ((s ++ t).length - j < needle.length →
      ¬ (s ++ t).drop j <+: needle) := by
  have hnot := find_eq_none.mp hnone j (by omega)
  have hsplit : (s ++ t).drop j = s.drop j ++ t := drop_append_of_le_length (by omega)
  rw [hsplit]
  refine ⟨fun hat => ?_, fun hlt hat => ?_⟩
  · rcases Nat.lt_or_ge (s.length - j) needle.length with hlt | hge
    · have hpart : s.drop j <+: needle := by
        refine prefix_of_prefix_length_le (prefix_append _ t) hat ?_
        rw [length_drop]
        omega
      have := le_overlap_of_part hlt hpart
      omega
    · refine hnot (prefix_of_prefix_length_le hat (prefix_append _ t) ?_)
      rw [length_drop]
      exact hge
  · rw [length_append] at hlt
    have := le_overlap_of_part (by omega) ((prefix_append _ t).trans hat)
    omega

theorem kept_append_eq (t : List α) :
    kept needle s ++ t = (s ++ t).drop (s.length - overlap needle s) :=
  (drop_append_of_le_length (Nat.sub_le _ _)).symm

theorem length_append_eq (t : List α) :
    (s ++ t).length = s.length - overlap needle s + (kept needle s ++ t).length := by
  rw [kept_append_eq, length_drop, length_append]
  omega

/-- **The needle is found behind what was given up.** -/
theorem find_append (hnone : find needle s = none) (t : List α) :
    find needle (s ++ t) =
      (find needle (kept needle s ++ t)).map (s.length - overlap needle s + ·) := by
  rw [kept_append_eq]
  refine find_drop ?_ fun j hj => (not_prefix_append hnone t hj).1
  rw [length_append]
  omega

/-- **The overlap is that of what was kept.** -/
theorem overlap_append (hne : needle ≠ []) (hnone : find needle s = none) (t : List α) :
    overlap needle (s ++ t) = overlap needle (kept needle s ++ t) := by
  rw [kept_append_eq]
  have hgiven : overlap needle (s ++ t) ≤ (s ++ t).length - (s.length - overlap needle s) := by
    -- a longer overlap would begin in what was given up
    by_contra hgt
    have hlt := overlap_lt (s := s ++ t) hne
    have hle : overlap needle (s ++ t) ≤ (s ++ t).length := overlap_le
    have hj : (s ++ t).length - overlap needle (s ++ t) < s.length - overlap needle s := by omega
    refine (not_prefix_append hnone t hj).2 (by omega) ?_
    have hsuffix : needle.take (overlap needle (s ++ t)) <:+ s ++ t := overlap_suffix
    have hdrop := suffix_iff_eq_drop.mp hsuffix
    rw [length_take, Nat.min_eq_left hlt.le] at hdrop
    rw [← hdrop]
    exact take_prefix _ _
  refine le_antisymm (le_overlap (overlap_lt hne) ?_) (le_overlap (overlap_lt hne) ?_)
  · refine suffix_of_suffix_length_le overlap_suffix (drop_suffix _ _) ?_
    rw [length_take, length_drop]
    omega
  · exact overlap_suffix.trans (drop_suffix _ _)

end StreamSearch
