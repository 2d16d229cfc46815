/-
CodexPlus/Coalesce.lean

Lists whose neighbours of one kind are joined, over any type of items.

`combine a b` is the item that `a` and `b` make together, if they are of one kind.
`join` puts an item behind a list and joins it to the last one; `coalesce` does so for
all items of a list.  When `combine` is associative (`Joins`), it does not matter in
which parts a list is coalesced (`coalesce_append`).
-/
import Mathlib.Data.List.Induction
import Mathlib.Logic.Function.Basic

namespace Coalesce

open List

variable {α β : Type*}

/-- The list with one more item, joined to the last one if the two can be combined. -/
def join (combine : α → α → Option α) (l : List α) (a : α) : List α :=
  match l.getLast? with
  | none => [a]
  | some last =>
    match combine last a with
    | some both => l.dropLast ++ [both]
    | none => l ++ [a]

/-- All items, joined from the left. -/
def coalesce (combine : α → α → Option α) (l : List α) : List α := l.foldl (join combine) []

/-- Combining is associative: an item joins two items that belong together exactly as it joins
the first of them. -/
structure Joins (combine : α → α → Option α) : Prop where
  assoc : ∀ {x a b z c}, combine a b = some c → combine x a = some z →
    ∃ all, combine z b = some all ∧ combine x c = some all
  apart : ∀ {x a b c}, combine a b = some c → combine x a = none → combine x c = none

variable {combine : α → α → Option α}

@[simp] theorem join_nil (a : α) : join combine [] a = [a] := rfl

theorem coalesce_concat (l : List α) (a : α) :
    coalesce combine (l ++ [a]) = join combine (coalesce combine l) a := by
  rw [coalesce, foldl_append]
  rfl

variable {l : List α} {a last : α}

theorem join_concat_some {both : α} (h : combine last a = some both) :
    join combine (l ++ [last]) a = l ++ [both] := by
  simp [join, h]

theorem join_concat_none (h : combine last a = none) :
    join combine (l ++ [last]) a = l ++ [last] ++ [a] := by
  simp [join, h]

/-- Two items that belong together can be put in as one. -/
theorem join_join (hjoins : Joins combine) {b c : α} (h : combine a b = some c) (l : List α) :
    join combine (join combine l a) b = join combine l c := by
  rcases l.eq_nil_or_concat with rfl | ⟨init, last, rfl⟩
  · exact join_concat_some (l := []) h
  rw [concat_eq_append]
  rcases hlast : combine last a with - | both
  · rw [join_concat_none hlast, join_concat_none (hjoins.apart h hlast), join_concat_some h]
  · obtain ⟨all, hboth, hall⟩ := hjoins.assoc h hlast
    rw [join_concat_some hlast, join_concat_some hboth, join_concat_some hall]

/-- A measure that adds up over combined items adds up over a coalesced list. -/
theorem foldl_eq_of_combine {γ : Type*} (combine : α → α → Option α) (f : γ → α → γ)
    (h : ∀ g a b c, combine a b = some c → f (f g a) b = f g c) (g : γ) (l : List α) :
    (coalesce combine l).foldl f g = l.foldl f g := by
  induction l using List.reverseRecOn with
  | nil => rfl
  | append_singleton l a ih =>
    have hjoin : ∀ items : List α, (join combine items a).foldl f g = f (items.foldl f g) a := by
      intro items
      rcases items.eq_nil_or_concat with rfl | ⟨init, last, rfl⟩
      · rfl
      rw [concat_eq_append, foldl_append]
      rcases hlast : combine last a with - | both
      · rw [join_concat_none hlast, foldl_append, foldl_append]
        rfl
      · rw [join_concat_some hlast, foldl_append]
        exact (h _ _ _ _ hlast).symm
    rw [coalesce_concat, hjoin, ih, foldl_append]
    rfl

/-- **Parts that are coalesced already make no difference.** -/
theorem foldl_coalesce (hjoins : Joins combine) (acc l : List α) :
    (coalesce combine l).foldl (join combine) acc = l.foldl (join combine) acc :=
  foldl_eq_of_combine combine (join combine) (fun g _ _ _ h => join_join hjoins h g) acc l

theorem coalesce_append (hjoins : Joins combine) (l l' : List α) :
    coalesce combine (coalesce combine l ++ coalesce combine l') = coalesce combine (l ++ l') := by
  show (coalesce combine l ++ coalesce combine l').foldl (join combine) [] =
    (l ++ l').foldl (join combine) []
  rw [foldl_append, foldl_append, foldl_coalesce hjoins, foldl_coalesce hjoins]

variable {f : α → β} {combine' : β → β → Option β}

/-- Items that are renamed combine as the items do. -/
theorem Joins.map (hjoins : Joins combine)
    (hf : f.Surjective) (h : ∀ a b, combine' (f a) (f b) = (combine a b).map f) :
    Joins combine' := by
  have hsome : ∀ {a b c}, combine' (f a) (f b) = some c → ∃ d, combine a b = some d ∧ f d = c := by
    intro a b c hab
    rw [h] at hab
    exact Option.map_eq_some_iff.mp hab
  constructor
  · intro x a b z c hab hxa
    obtain ⟨x, rfl⟩ := hf x
    obtain ⟨a, rfl⟩ := hf a
    obtain ⟨b, rfl⟩ := hf b
    obtain ⟨c, hc, rfl⟩ := hsome hab
    obtain ⟨z, hz, rfl⟩ := hsome hxa
    obtain ⟨all, hzb, hxc⟩ := hjoins.assoc hc hz
    exact ⟨f all, by rw [h, hzb]; rfl, by rw [h, hxc]; rfl⟩
  · intro x a b c hab hxa
    obtain ⟨x, rfl⟩ := hf x
    obtain ⟨a, rfl⟩ := hf a
    obtain ⟨b, rfl⟩ := hf b
    obtain ⟨c, hc, rfl⟩ := hsome hab
    rw [h, Option.map_eq_none_iff] at hxa ⊢
    exact hjoins.apart hc hxa

/-- A renaming of the items that keeps what is combined commutes with joining. -/
theorem map_coalesce (h : ∀ a b, combine' (f a) (f b) = (combine a b).map f) (l : List α) :
    (coalesce combine l).map f = coalesce combine' (l.map f) := by
  have hjoin : ∀ (items : List α) (a : α),
      (join combine items a).map f = join combine' (items.map f) (f a) := by
    intro items a
    rcases items.eq_nil_or_concat with rfl | ⟨init, last, rfl⟩
    · rfl
    rw [concat_eq_append]
    rcases hlast : combine last a with - | both
    · have hlast' : combine' (f last) (f a) = none := by rw [h, hlast]; rfl
      rw [join_concat_none hlast]
      simp only [map_append, map_cons, map_nil]
      exact (join_concat_none hlast').symm
    · have hlast' : combine' (f last) (f a) = some (f both) := by rw [h, hlast]; rfl
      rw [join_concat_some hlast]
      simp only [map_append, map_cons, map_nil]
      exact (join_concat_some hlast').symm
  induction l using List.reverseRecOn with
  | nil => rfl
  | append_singleton l a ih =>
    rw [coalesce_concat, hjoin, ih, map_append, map_singleton, coalesce_concat]

end Coalesce
