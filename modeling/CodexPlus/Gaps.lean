/-
CodexPlus/Gaps.lean

Editing a list by its gaps.

A list of length `n` has `n + 1` gaps, gap `i` in front of the element at `i`.  `rebuild`
is the list in which some elements are removed and new ones stand in given gaps, several in
one gap in the order they are given.  `rebuildFrom_splice` takes the first stretch off: what
is before it, what replaces it, and the rest.
-/
import Mathlib.Data.List.Basic

namespace CodexPlus

open List

namespace Gaps

variable {α : Type}

/-- What stands in a gap, and the element behind it. -/
def cell (source : List α) (insertions : List (ℕ × α)) (removals : List ℕ) (gap : ℕ) : List α :=
  (insertions.filter (·.1 = gap)).map (·.2) ++ if gap ∈ removals then [] else source[gap]?.toList

/-- A list without the removed elements and with the insertions in their gaps. -/
def rebuild (source : List α) (insertions : List (ℕ × α)) (removals : List ℕ) : List α :=
  (List.range (source.length + 1)).flatMap (cell source insertions removals)

def rebuildFrom (first : ℕ) (source : List α) (insertions : List (ℕ × α)) (removals : List ℕ) :
    List α :=
  (List.range' first (source.length + 1 - first)).flatMap (cell source insertions removals)

variable {source : List α} {insertions insertions' : List (ℕ × α)} {removals removals' : List ℕ}

theorem rebuildFrom_zero : rebuildFrom 0 source insertions removals =
    rebuild source insertions removals := by
  rw [rebuild, range_eq_range']
  rfl

theorem rebuild_congr
    (hinsertions : ∀ gap : ℕ, insertions.filter (·.1 = gap) = insertions'.filter (·.1 = gap))
    (hremovals : ∀ i, i ∈ removals ↔ i ∈ removals') :
    rebuild source insertions removals = rebuild source insertions' removals' := by
  refine flatMap_congr fun gap _ => ?_
  simp [cell, hinsertions, hremovals]

theorem flatMap_getElem? (source : List α) (first count : ℕ) :
    (List.range' first count).flatMap (fun i => source[i]?.toList) =
      (source.drop first).take count := by
  induction count generalizing first with
  | zero => simp
  | succ _ ih =>
    rw [List.range'_succ, flatMap_cons, ih]
    by_cases hlt : first < source.length
    · rw [drop_eq_getElem_cons hlt, getElem?_eq_getElem hlt]
      rfl
    · rw [getElem?_eq_none (by omega), drop_eq_nil_of_le (by omega), drop_eq_nil_of_le (by omega)]
      simp

theorem rebuildFrom_nil (first : ℕ) : rebuildFrom first source [] [] = source.drop first := by
  have hcell : ∀ gap ∈ List.range' first (source.length + 1 - first),
      cell source [] [] gap = source[gap]?.toList := fun gap _ => by
    simp [cell]
  rw [rebuildFrom, flatMap_congr hcell, flatMap_getElem?, take_of_length_le]
  rw [length_drop]
  omega

/-- Gaps before all changes hold their elements. -/
theorem cell_of_lt {gap first : ℕ} (hlt : gap < first) (hinsertions : ∀ x ∈ insertions, first ≤ x.1)
    (hremovals : ∀ i ∈ removals, first ≤ i) :
    cell source insertions removals gap = source[gap]?.toList := by
  have hnone : insertions.filter (·.1 = gap) = [] := by
    refine filter_eq_nil_iff.mpr fun x hmem => ?_
    have := hinsertions x hmem
    simp only [decide_eq_true_eq]
    omega
  have hkept : gap ∉ removals := fun hmem => absurd (hremovals gap hmem) (by omega)
  rw [cell, hnone, if_neg hkept]
  rfl

section Splice

variable {first start len : ℕ} {segment : List α}

/-- A gap from the start of the first stretch on. -/
theorem cell_splice {gap : ℕ} (hinsertions : ∀ x ∈ insertions, start + len ≤ x.1) :
    cell source (segment.map (start, ·) ++ insertions) (List.range' start len ++ removals) gap =
      (if gap = start then segment else []) ++
        if gap ∈ List.range' start len then [] else cell source insertions removals gap := by
  have hsegment : ((segment.map (start, ·)).filter (·.1 = gap)).map (·.2) =
      if gap = start then segment else [] := by
    split
    · next heq => simp [heq, filter_map, Function.comp_def]
    · next hne => simp [Ne.symm hne, filter_map, Function.comp_def]
  rw [cell, filter_append, map_append, hsegment, append_assoc]
  by_cases hmem : gap ∈ List.range' start len
  · -- the other insertions are behind the stretch
    have hnone : insertions.filter (·.1 = gap) = [] := by
      refine filter_eq_nil_iff.mpr fun x hx => ?_
      have hx := hinsertions x hx
      have hgap := mem_range'_1.mp hmem
      simp only [decide_eq_true_eq]
      omega
    rw [hnone, if_pos (mem_append_left _ hmem), if_pos hmem]
    rfl
  · rw [if_neg hmem, cell]
    simp [hmem]

theorem flatMap_range'_drop {β : Type} (f : ℕ → List β) {count : ℕ} (hlen : len ≤ count) :
    (List.range' start count).flatMap (fun i => if i ∈ List.range' start len then [] else f i) =
      (List.range' (start + len) (count - len)).flatMap f := by
  obtain ⟨rest, rfl⟩ := Nat.exists_eq_add_of_le hlen
  rw [← List.range'_append_1, flatMap_append, Nat.add_sub_cancel_left]
  have hfirst : (List.range' start len).flatMap
      (fun i => if i ∈ List.range' start len then [] else f i) = [] :=
    flatMap_eq_nil_iff.mpr fun i hi => if_pos hi
  rw [hfirst]
  refine flatMap_congr fun i hi => if_neg fun hmem => ?_
  have hi := mem_range'_1.mp hi
  have hmem := mem_range'_1.mp hmem
  omega

/-- **The first stretch.** -/
theorem rebuildFrom_splice (hfirst : first ≤ start) (hlast : start + len ≤ source.length)
    (hinsertions : ∀ x ∈ insertions, start + len ≤ x.1)
    (hremovals : ∀ i ∈ removals, start + len ≤ i) :
    rebuildFrom first source (segment.map (start, ·) ++ insertions)
        (List.range' start len ++ removals) =
      (source.drop first).take (start - first) ++ segment ++
        rebuildFrom (start + len) source insertions removals := by
  have hsplit : List.range' first (source.length + 1 - first) =
      List.range' first (start - first) ++ List.range' start (source.length + 1 - start) := by
    have happend := List.range'_append_1 (s := first) (m := start - first)
      (n := source.length + 1 - start)
    rw [show first + (start - first) = start by omega,
      show start - first + (source.length + 1 - start) = source.length + 1 - first by omega]
      at happend
    exact happend.symm
  -- the elements before the stretch
  have hbefore : (List.range' first (start - first)).flatMap
      (cell source (segment.map (start, ·) ++ insertions) (List.range' start len ++ removals)) =
        (source.drop first).take (start - first) := by
    rw [← flatMap_getElem?]
    refine flatMap_congr fun gap hgap => ?_
    have hgap := mem_range'_1.mp hgap
    refine cell_of_lt (show gap < start by omega) ?_ ?_
    · intro x hx
      rcases mem_append.mp hx with hx | hx
      · obtain ⟨_, -, rfl⟩ := mem_map.mp hx
        exact Nat.le_refl _
      · exact Nat.le_trans (Nat.le_add_right _ _) (hinsertions x hx)
    · intro i hi
      rcases mem_append.mp hi with hi | hi
      · exact (mem_range'_1.mp hi).1
      · exact Nat.le_trans (Nat.le_add_right _ _) (hremovals i hi)
  -- the stretch itself: only its first gap holds the segment
  have hsegment : (List.range' start (source.length + 1 - start)).flatMap (fun gap =>
      (if gap = start then segment else []) ++
        if gap ∈ List.range' start len then [] else cell source insertions removals gap) =
        segment ++ (List.range' start (source.length + 1 - start)).flatMap (fun gap =>
          if gap ∈ List.range' start len then [] else cell source insertions removals gap) := by
    obtain ⟨count, hcount⟩ : ∃ count, source.length + 1 - start = count + 1 :=
      ⟨source.length - start, by omega⟩
    rw [hcount, List.range'_succ, flatMap_cons, if_pos rfl, append_assoc]
    refine congrArg _ (congrArg _ (flatMap_congr fun gap hgap => ?_))
    have hgap := mem_range'_1.mp hgap
    rw [if_neg (by omega), nil_append]
  rw [rebuildFrom, hsplit, flatMap_append, hbefore, append_assoc]
  rw [flatMap_congr fun gap _ => cell_splice hinsertions, hsegment,
    flatMap_range'_drop _ (by omega), rebuildFrom,
    show source.length + 1 - start - len = source.length + 1 - (start + len) by omega]

end Splice

end Gaps

end CodexPlus
