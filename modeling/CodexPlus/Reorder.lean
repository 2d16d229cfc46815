/-
CodexPlus/Reorder.lean

Numbered items that arrive in any order, some of them more than once.

`expected d` is the first number that did not arrive among `d`: a receiver that
hands items on in order has handed on all the numbers before it.  `ahead d` are the
numbers it has to keep until then.
-/
import Mathlib

namespace Reorder

theorem exists_not_mem (delivered : List ℕ) : ∃ n, n ∉ delivered :=
  ⟨delivered.sum + 1, fun h => absurd (List.single_le_sum (fun _ _ => Nat.zero_le _) _ h) (by omega)⟩

/-- The first number that did not arrive. -/
def expected (delivered : List ℕ) : ℕ := Nat.find (exists_not_mem delivered)

/-- The numbers that arrived ahead of the first one that is missing. -/
def ahead (delivered : List ℕ) : Finset ℕ :=
  delivered.toFinset.filter (expected delivered < ·)

theorem expected_not_mem (delivered : List ℕ) : expected delivered ∉ delivered :=
  Nat.find_spec (exists_not_mem delivered)

variable {delivered : List ℕ} {n : ℕ}

theorem mem_of_lt_expected (h : n < expected delivered) :
    n ∈ delivered := not_not.mp (Nat.find_min (exists_not_mem delivered) h)

theorem expected_eq (hlt : ∀ i < n, i ∈ delivered) (hn : n ∉ delivered) : expected delivered = n :=
  (Nat.find_eq_iff _).mpr ⟨hn, fun i hi => not_not.mpr (hlt i hi)⟩

@[simp] theorem expected_nil : expected [] = 0 :=
  expected_eq (fun _ h => absurd h (Nat.not_lt_zero _)) List.not_mem_nil

/-- Any other number leaves the first missing one as it is. -/
theorem expected_concat_of_ne (h : n ≠ expected delivered) :
    expected (delivered ++ [n]) = expected delivered := by
  refine expected_eq (fun i hi => List.mem_append_left _ (mem_of_lt_expected hi)) fun hmem => ?_
  rcases List.mem_append.mp hmem with hmem | hmem
  · exact expected_not_mem delivered hmem
  · exact h (List.mem_singleton.mp hmem).symm

theorem expected_le {count : ℕ} (hlt : ∀ n ∈ delivered, n < count) : expected delivered ≤ count :=
  Nat.le_of_not_lt fun h => absurd (hlt count (mem_of_lt_expected h)) (lt_irrefl count)

theorem mem_ahead : n ∈ ahead delivered ↔ n ∈ delivered ∧ expected delivered < n := by
  simp [ahead]

end Reorder
