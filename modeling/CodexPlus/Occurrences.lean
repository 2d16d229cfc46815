/-
CodexPlus/Occurrences.lean

Cutting a text at the occurrences of a word, over any alphabet.

`pieces needle text` is what is left of the text between the occurrences that are found
from left to right, none of which overlap.  The two equations `pieces_of_none` and
`pieces_of_some` say how this goes on from the first place where the word stands, and
everything else follows from them by `occurrence_induction`.
-/
import CodexPlus.StreamSearch
import Mathlib.Data.List.Forall2

namespace Occurrences

open List

open StreamSearch

variable {α : Type*} [DecidableEq α] {needle text : List α}

/-- Some symbols of an occurrence may still have to be passed over. -/
def cut (needle : List α) : ℕ → List α → List (List α)
  | _, [] => [[]]
  | skip + 1, _ :: rest => cut needle skip rest
  | 0, c :: rest =>
    if needle <+: c :: rest then [] :: cut needle (needle.length - 1) rest
    else (cut needle 0 rest).modifyHead (c :: ·)

/-- The pieces between the occurrences of a word, taken from left to right. -/
def pieces (needle text : List α) : List (List α) := cut needle 0 text

/-- How many occurrences are taken. -/
def count (needle text : List α) : ℕ := (pieces needle text).length - 1

/-- All occurrences are replaced. -/
def replaceAll (needle new text : List α) : List α := new.intercalate (pieces needle text)

/-- The first occurrence is replaced. -/
def replaceFirst (needle new text : List α) : List α :=
  match find needle text with
  | none => text
  | some i => text.take i ++ new ++ text.drop (i + needle.length)

/-! ### Cutting -/

theorem cut_skip (skip : ℕ) (text : List α) : cut needle skip text = cut needle 0 (text.drop skip) := by
  induction skip generalizing text with
  | zero => rfl
  | succ _ ih =>
    cases text with
    | nil => rfl
    | cons c rest => exact ih rest

theorem pieces_of_start {c : α} {rest : List α} (h : needle <+: c :: rest) (hne : needle ≠ []) :
    pieces needle (c :: rest) = [] :: pieces needle ((c :: rest).drop needle.length) := by
  obtain ⟨d, tail, rfl⟩ := exists_cons_of_ne_nil hne
  rw [pieces, cut, if_pos h, cut_skip]
  rfl

theorem pieces_cons {c : α} {rest : List α} (h : ¬ needle <+: c :: rest) :
    pieces needle (c :: rest) = (pieces needle rest).modifyHead (c :: ·) := by
  rw [pieces, cut, if_neg h]
  rfl

/-- A text without the word is one piece. -/
theorem pieces_of_none (h : find needle text = none) : pieces needle text = [text] := by
  induction text with
  | nil => rfl
  | cons c rest ih =>
    have hnot : ¬ needle <+: c :: rest := find_eq_none.mp h 0 (Nat.zero_le _)
    rw [find_cons_of_not hnot, Option.map_eq_none_iff] at h
    rw [pieces_cons hnot, ih h]
    rfl

variable {i : ℕ}

/-- Otherwise the text up to the word is the first piece. -/
theorem pieces_of_some (h : find needle text = some i) (hne : needle ≠ []) :
    pieces needle text = text.take i :: pieces needle (text.drop (i + needle.length)) := by
  induction text generalizing i with
  | nil => simp [find, hne] at h
  | cons c rest ih =>
    by_cases hstart : needle <+: c :: rest
    · rw [find_of_start hstart] at h
      cases h
      rw [pieces_of_start hstart hne, Nat.zero_add]
      rfl
    · rw [find_cons_of_not hstart] at h
      obtain ⟨j, hj, rfl⟩ := Option.map_eq_some_iff.mp h
      rw [pieces_cons hstart, ih hj, Nat.add_right_comm]
      rfl

/-- A text without the word, or a text up to the word, the word and a text. -/
@[elab_as_elim]
theorem occurrence_induction {motive : List α → Prop} (needle : List α) (hne : needle ≠ [])
    (none : ∀ text, find needle text = none → motive text)
    (some : ∀ text i, find needle text = some i → motive (text.drop (i + needle.length)) →
      motive text) (text : List α) : motive text := by
  induction hn : text.length using Nat.strong_induction_on generalizing text with
  | _ n ih =>
    rcases hfind : find needle text with - | i
    · exact none text hfind
    refine some text i hfind (ih _ ?_ _ rfl)
    obtain ⟨hle, hstands, -⟩ := find_eq_some.mp hfind
    have hpos := length_pos_iff.mpr hne
    have hlength := hstands.length_le
    rw [length_drop] at hlength ⊢
    omega

theorem pieces_ne_nil (needle text : List α) (hne : needle ≠ []) : pieces needle text ≠ [] := by
  rcases hfind : find needle text with - | i
  · rw [pieces_of_none hfind]
    exact cons_ne_nil _ _
  · rw [pieces_of_some hfind hne]
    exact cons_ne_nil _ _

/-- What is found, split off. -/
theorem eq_of_find (h : find needle text = some i) :
    text = text.take i ++ needle ++ text.drop (i + needle.length) := by
  obtain ⟨-, ⟨rest, hrest⟩, -⟩ := find_eq_some.mp h
  have hdrop : text.drop (i + needle.length) = rest := by
    rw [← drop_drop, ← hrest, drop_left]
  rw [hdrop, append_assoc, hrest, take_append_drop]

variable {rest : List (List α)} {piece : List α}

/-- The text starts with its first piece. -/
theorem piece_isPrefix (hne : needle ≠ [])
    (h : pieces needle text = piece :: rest) : piece <+: text := by
  rcases hfind : find needle text with - | i
  · rw [pieces_of_none hfind] at h
    cases h
    exact prefix_refl text
  · rw [pieces_of_some hfind hne] at h
    cases h
    exact take_prefix i text

theorem count_of_none (h : find needle text = none) : count needle text = 0 := by
  rw [count, pieces_of_none h]
  rfl

theorem count_of_some (h : find needle text = some i) (hne : needle ≠ []) :
    count needle text = count needle (text.drop (i + needle.length)) + 1 := by
  have hpos := length_pos_iff.mpr (pieces_ne_nil needle (text.drop (i + needle.length)) hne)
  rw [count, count, pieces_of_some h hne, length_cons]
  omega

section

variable (hne : needle ≠ [])

include hne

/-- A word that stands somewhere is found. -/
theorem count_pos {j : ℕ} (h : needle <+: text.drop j) : 0 < count needle text := by
  rcases hfind : find needle text with - | i
  · have hj : j ≤ text.length := by
      have hlength := h.length_le
      have hpos := length_pos_iff.mpr hne
      rw [length_drop] at hlength
      omega
    exact absurd h (find_eq_none.mp hfind j hj)
  · rw [count_of_some hfind hne]
    exact Nat.succ_pos _

/-- A word that stands behind the first one is found as well. -/
theorem two_le_count {j : ℕ} (hfind : find needle text = some i)
    (hj : i + needle.length ≤ j) (h : needle <+: text.drop j) : 2 ≤ count needle text := by
  have hbehind : needle <+: (text.drop (i + needle.length)).drop (j - (i + needle.length)) := by
    rwa [drop_drop, Nat.add_sub_cancel' hj]
  rw [count_of_some hfind hne]
  have hpos := count_pos hne hbehind
  omega

/-! ### Longer words -/

/-- A part of the first piece can be left out of the text. -/
theorem pieces_drop {n : ℕ} (h : pieces needle text = piece :: rest) (hn : n ≤ piece.length) :
    pieces needle (text.drop n) = piece.drop n :: rest := by
  rcases hfind : find needle text with - | i
  · rw [pieces_of_none hfind] at h
    cases h
    have hnone : find needle (text.drop n) = none := by
      refine find_eq_none.mpr fun j hj => ?_
      rw [length_drop] at hj
      rw [drop_drop]
      exact find_eq_none.mp hfind _ (by omega)
    rw [pieces_of_none hnone]
  · rw [pieces_of_some hfind hne] at h
    cases h
    obtain ⟨hle, hstands, hfirst⟩ := find_eq_some.mp hfind
    have hni : n ≤ i := hn.trans (length_take_le _ _)
    have hsome : find needle (text.drop n) = some (i - n) := by
      refine find_eq_some.mpr ⟨by rw [length_drop]; omega, ?_, fun j hj => ?_⟩
      · rwa [drop_drop, Nat.add_sub_cancel' hni]
      · rw [drop_drop]
        exact hfirst _ (by omega)
    rw [pieces_of_some hsome hne, drop_drop, take_drop]
    have hadd : n + (i - n + needle.length) = i + needle.length := by omega
    rw [hadd, Nat.add_sub_cancel' hni]

/-- A piece behind an occurrence stands in the text behind the word. -/
theorem exists_of_mem_tail {tail : List α}
    (h : tail ∈ (pieces needle text).tail) : ∃ j, needle ++ tail <+: text.drop j := by
  induction text using occurrence_induction needle hne with
  | none _ hfind =>
    rw [pieces_of_none hfind] at h
    cases h
  | some text i hfind ih =>
    rw [pieces_of_some hfind hne] at h
    obtain ⟨piece, rest, hpieces⟩ :=
      exists_cons_of_ne_nil (pieces_ne_nil needle (text.drop (i + needle.length)) hne)
    rw [hpieces] at h ih
    rcases mem_cons.mp h with rfl | hmem
    · -- the first piece behind this occurrence
      obtain ⟨-, ⟨behind, hbehind⟩, -⟩ := find_eq_some.mp hfind
      refine ⟨i, ?_⟩
      have hpart := piece_isPrefix hne hpieces
      rw [← drop_drop, ← hbehind, drop_left] at hpart
      rwa [← hbehind, prefix_append_right_inj]
    · obtain ⟨j, hj⟩ := ih hmem
      exact ⟨i + needle.length + j, by rwa [drop_drop] at hj⟩

/-- **A longer word.**  When every occurrence goes on in the same way, the longer word is found at
the same places. -/
theorem pieces_append {ending : List α}
    (h : pieces needle text = piece :: rest) (hends : ∀ tail ∈ rest, ending <+: tail) :
    pieces (needle ++ ending) text = piece :: rest.map (·.drop ending.length) := by
  have hlong : needle ++ ending ≠ [] := by simp [hne]
  induction text using occurrence_induction needle hne generalizing piece rest with
  | none _ hfind =>
    rw [pieces_of_none hfind] at h
    cases h
    refine pieces_of_none (find_eq_none.mpr fun j hj hstands => ?_)
    exact find_eq_none.mp hfind j hj ((prefix_append _ _).trans hstands)
  | some text i hfind ih =>
    rw [pieces_of_some hfind hne] at h
    cases h
    obtain ⟨next, others, hpieces⟩ :=
      exists_cons_of_ne_nil (pieces_ne_nil needle (text.drop (i + needle.length)) hne)
    rw [hpieces] at hends ⊢
    have hnext := hends next mem_cons_self
    have hpart : ending <+: text.drop (i + needle.length) :=
      hnext.trans (piece_isPrefix hne hpieces)
    obtain ⟨hle, hstands, hfirst⟩ := find_eq_some.mp hfind
    have hlongFind : find (needle ++ ending) text = some i := by
      refine find_eq_some.mpr ⟨hle, ?_, fun j hj hat => hfirst j hj ?_⟩
      · obtain ⟨behind, hbehind⟩ := hstands
        rw [← drop_drop, ← hbehind, drop_left] at hpart
        rwa [← hbehind, prefix_append_right_inj]
      · exact (prefix_append _ _).trans hat
    have hrest := ih hpieces fun tail htail => hends tail (mem_cons_of_mem _ htail)
    have hdrop := pieces_drop hlong hrest hnext.length_le
    rw [pieces_of_some hlongFind hlong, length_append, ← Nat.add_assoc, ← drop_drop, hdrop]
    rfl

/-! ### Lengths -/

theorem length_eq (text : List α) :
    text.length = (pieces needle text).flatten.length + count needle text * needle.length := by
  induction text using occurrence_induction needle hne with
  | none _ h => rw [pieces_of_none h, count_of_none h]; simp
  | some _ _ h =>
    rw [pieces_of_some h hne, count_of_some h hne, flatten_cons, length_append]
    have hsplit := congrArg List.length (eq_of_find h)
    rw [length_append, length_append] at hsplit
    rw [Nat.succ_mul]
    omega

end

omit [DecidableEq α] in
/-- Texts of which each lost at most `n` symbols: when all of them lost as many as they could, each
did. -/
theorem forall_of_length_eq {R : List α → List α → Prop} {P : List α → Prop} {n : ℕ}
    (hle : ∀ before after, R before after → before.length ≤ after.length + n)
    (heq : ∀ before after, R before after → before.length = after.length + n → P before)
    {befores afters : List (List α)} (h : List.Forall₂ R befores afters) :
    befores.flatten.length ≤ afters.flatten.length + befores.length * n ∧
      (befores.flatten.length = afters.flatten.length + befores.length * n →
        ∀ before ∈ befores, P before) := by
  induction h with
  | nil => simp
  | @cons before after _ _ hhead _ ih =>
    have hfirst := hle before after hhead
    simp only [flatten_cons, length_append, length_cons, Nat.succ_mul]
    refine ⟨by omega, fun hall => ?_⟩
    rw [forall_mem_cons]
    exact ⟨heq before after hhead (by omega), ih.2 (by omega)⟩

end Occurrences
