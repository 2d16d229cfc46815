/-
CodexPlus/Relocation.lean

Rebuilding a sequence in one pass from a plan that drops some positions and
moves others to just behind a position that stays.

`rebuilt` lists positions: each position that stays is followed by those that
move behind it, in their old order.  A position whose target does not stay is
stranded and comes at the end, in an order the plan does not fix.

Two facts are used: nothing is lost or repeated (`rebuilt_perm`), and a plan
that moves a position only over positions that leave their place with it keeps
the order (`rebuilt_eq_filter`).
-/
import Mathlib.Data.List.Basic
import Mathlib.Data.List.Nodup
import Mathlib.Data.List.Perm.Basic
import Mathlib.Data.List.Range

namespace CodexPlus

open List

namespace Relocation

structure Plan where
  size : ℕ
  dropped : ℕ → Bool
  /-- The position behind which a position moves. -/
  target : ℕ → Option ℕ

namespace Plan

variable (p : Plan)

/-- The position does not stay: it is dropped or moves. -/
def skips (i : ℕ) : Bool := p.dropped i || (p.target i).isSome

/-- The positions that move behind `t`, in order. -/
def movedTo (t : ℕ) : List ℕ :=
  (List.range p.size).filter fun i => !p.dropped i && p.target i == some t

def emit (i : ℕ) : List ℕ := if p.skips i then [] else i :: p.movedTo i

/-- The targets that do not stay. -/
def strandedTargets : List ℕ :=
  (List.range p.size).filter fun t => p.skips t && !(p.movedTo t).isEmpty

def rebuilt (drain : List ℕ → List ℕ) : List ℕ :=
  (List.range p.size).flatMap p.emit ++ (drain p.strandedTargets).flatMap p.movedTo

/-! ### Nothing is lost or repeated -/

variable {p} {i t : ℕ}

theorem mem_movedTo : i ∈ p.movedTo t ↔ i < p.size ∧ p.dropped i = false ∧ p.target i = some t := by
  simp [movedTo]

theorem skips_of_mem_movedTo (h : i ∈ p.movedTo t) : p.skips i := by
  simp [skips, (mem_movedTo.mp h).2.2]

theorem nodup_movedTo (t : ℕ) : (p.movedTo t).Nodup := nodup_range.filter _

theorem mem_emit {j : ℕ} : j ∈ p.emit i ↔ p.skips i = false ∧ (j = i ∨ j ∈ p.movedTo i) := by
  unfold emit
  split <;> simp_all

theorem nodup_emit (i : ℕ) : (p.emit i).Nodup := by
  unfold emit
  split
  · exact nodup_nil
  · next h =>
    refine nodup_cons.mpr ⟨fun hi => ?_, nodup_movedTo i⟩
    exact h (skips_of_mem_movedTo hi)

theorem mem_strandedTargets :
    t ∈ p.strandedTargets ↔ t < p.size ∧ p.skips t ∧ p.movedTo t ≠ [] := by
  simp [strandedTargets]

/-- Two positions of the pass emit different positions. -/
theorem disjoint_emit {j : ℕ} (hij : i ≠ j) : List.Disjoint (p.emit i) (p.emit j) := by
  intro k hi hj
  obtain ⟨hsi, hki⟩ := mem_emit.mp hi
  obtain ⟨hsj, hkj⟩ := mem_emit.mp hj
  rcases hki with rfl | hki <;> rcases hkj with rfl | hkj
  · exact hij rfl
  · rw [skips_of_mem_movedTo hkj] at hsi
    cases hsi
  · rw [skips_of_mem_movedTo hki] at hsj
    cases hsj
  · have ht := (mem_movedTo.mp hki).2.2.symm.trans (mem_movedTo.mp hkj).2.2
    exact hij (Option.some.inj ht)

theorem disjoint_movedTo {u : ℕ} (htu : t ≠ u) : List.Disjoint (p.movedTo t) (p.movedTo u) := by
  intro k ht hu
  exact htu (Option.some.inj ((mem_movedTo.mp ht).2.2.symm.trans (mem_movedTo.mp hu).2.2))

theorem nodup_flatMap_emit {l : List ℕ} (hl : l.Nodup) : (l.flatMap p.emit).Nodup :=
  nodup_flatMap.mpr ⟨fun i _ => nodup_emit i, hl.imp fun hij => disjoint_emit hij⟩

variable {drain : List ℕ → List ℕ}

section

variable (hdrain : ∀ l, (drain l).Perm l)
include hdrain

theorem nodup_rebuilt : (p.rebuilt drain).Nodup := by
  rw [rebuilt, nodup_append']
  refine ⟨?_, ?_, ?_⟩
  · exact nodup_flatMap_emit nodup_range
  · have hnodup : (drain p.strandedTargets).Nodup :=
      (hdrain _).nodup_iff.mpr (nodup_range.filter _)
    exact nodup_flatMap.mpr ⟨fun t _ => nodup_movedTo t, hnodup.imp fun htu => disjoint_movedTo htu⟩
  · -- a position behind a target that stays is not behind a stranded one
    intro k hk hk'
    obtain ⟨i, -, hki⟩ := mem_flatMap.mp hk
    obtain ⟨t, ht, hkt⟩ := mem_flatMap.mp hk'
    obtain ⟨hsi, hki⟩ := mem_emit.mp hki
    have hst : p.skips t = true := (mem_strandedTargets.mp ((hdrain _).subset ht)).2.1
    rcases hki with rfl | hki
    · rw [skips_of_mem_movedTo hkt] at hsi
      cases hsi
    · have hit := (mem_movedTo.mp hki).2.2.symm.trans (mem_movedTo.mp hkt).2.2
      rw [Option.some.inj hit, hst] at hsi
      cases hsi

variable (htarget : ∀ i t, p.target i = some t → t < p.size)
include htarget

theorem mem_rebuilt : i ∈ p.rebuilt drain ↔ i < p.size ∧ p.dropped i = false := by
  simp only [rebuilt, mem_append, mem_flatMap, mem_range]
  constructor
  · rintro (⟨j, hj, hi⟩ | ⟨t, -, hi⟩)
    · obtain ⟨hs, rfl | hi⟩ := mem_emit.mp hi
      · exact ⟨hj, (Bool.or_eq_false_iff.mp hs).1⟩
      · exact ⟨(mem_movedTo.mp hi).1, (mem_movedTo.mp hi).2.1⟩
    · exact ⟨(mem_movedTo.mp hi).1, (mem_movedTo.mp hi).2.1⟩
  · rintro ⟨hi, hd⟩
    rcases ht : p.target i with - | t
    · exact .inl ⟨i, hi, mem_emit.mpr ⟨by simp [skips, hd, ht], .inl rfl⟩⟩
    have hmem : i ∈ p.movedTo t := mem_movedTo.mpr ⟨hi, hd, ht⟩
    rcases hs : p.skips t with - | -
    · exact .inl ⟨t, htarget i t ht, mem_emit.mpr ⟨hs, .inr hmem⟩⟩
    · refine .inr ⟨t, (hdrain _).symm.subset (mem_strandedTargets.mpr ?_), hmem⟩
      exact ⟨htarget i t ht, hs, ne_nil_of_mem hmem⟩

/-- **The rebuilt sequence is the positions that are not dropped, in some order.** -/
theorem rebuilt_perm :
    (p.rebuilt drain).Perm ((List.range p.size).filter fun i => !p.dropped i) := by
  refine (perm_ext_iff_of_nodup (nodup_rebuilt hdrain) (nodup_range.filter _)).mpr ?_
  simp [mem_rebuilt hdrain htarget]

end

/-- Positions that stay keep their order. -/
theorem filter_rebuilt {q : ℕ → Bool} (hq : ∀ i, q i → p.skips i = false) :
    (p.rebuilt drain).filter q = (List.range p.size).filter q := by
  have hmoved : ∀ t, (p.movedTo t).filter q = [] := fun t => by
    refine filter_eq_nil_iff.mpr fun i hi hqi => ?_
    have := skips_of_mem_movedTo hi
    rw [hq i hqi] at this
    cases this
  have hemit : ∀ i, (p.emit i).filter q = [i].filter q := fun i => by
    unfold emit
    split
    · next hs =>
      rcases hqi : q i with - | -
      · simp [hqi]
      · rw [hq i hqi] at hs
        cases hs
    · rw [← singleton_append, filter_append, hmoved, append_nil]
  rw [rebuilt, filter_append, filter_flatMap, filter_flatMap]
  simp only [hmoved, hemit]
  rw [← filter_flatMap]
  simp

/-- A position that moves behind a later position, or stays behind, comes later. -/
theorem sublist_rebuilt (hdrain : ∀ l, (drain l).Perm l) {c o : ℕ} (hc : c < p.size)
    (hstays : p.skips c = false) (ho : o < p.size) (hkept : p.dropped o = false)
    (hbehind : p.target o = none → c < o) (hlater : ∀ t, p.target o = some t → c ≤ t ∧ t < p.size) :
    [c, o].Sublist (p.rebuilt drain) := by
  have hsplit : List.range p.size = List.range c ++ c :: List.range' (c + 1) (p.size - (c + 1)) := by
    have happend := List.range'_append_1 (s := 0) (m := c) (n := p.size - (c + 1) + 1)
    rw [Nat.zero_add] at happend
    rw [range_eq_range', range_eq_range', ← List.range'_succ, happend]
    congr 1
    omega
  have hrest : ∀ i, c < i → i < p.size → i ∈ List.range' (c + 1) (p.size - (c + 1)) := by
    intro i hci hi
    rw [mem_range'_1]
    omega
  have hmem : o ∈ p.movedTo c ++ ((List.range' (c + 1) (p.size - (c + 1))).flatMap p.emit ++
      (drain p.strandedTargets).flatMap p.movedTo) := by
    simp only [mem_append, mem_flatMap]
    rcases ht : p.target o with - | t
    · have hs : p.skips o = false := by simp [skips, hkept, ht]
      exact .inr (.inl ⟨o, hrest o (hbehind ht) ho, mem_emit.mpr ⟨hs, .inl rfl⟩⟩)
    have hmoved : o ∈ p.movedTo t := mem_movedTo.mpr ⟨ho, hkept, ht⟩
    obtain ⟨hct, htsize⟩ := hlater t ht
    rcases hs : p.skips t with - | -
    · rcases hct.eq_or_lt with rfl | hct
      · exact .inl hmoved
      · exact .inr (.inl ⟨t, hrest t hct htsize, mem_emit.mpr ⟨hs, .inr hmoved⟩⟩)
    · -- the target itself leaves its place: the position comes at the end
      refine .inr (.inr ⟨t, (hdrain _).symm.subset (mem_strandedTargets.mpr ?_), hmoved⟩)
      exact ⟨htsize, hs, ne_nil_of_mem hmoved⟩
  have hrebuilt : p.rebuilt drain = (List.range c).flatMap p.emit ++ c :: (p.movedTo c ++
      ((List.range' (c + 1) (p.size - (c + 1))).flatMap p.emit ++
        (drain p.strandedTargets).flatMap p.movedTo)) := by
    have hemit : p.emit c = c :: p.movedTo c := by
      rw [emit, hstays]
      rfl
    rw [rebuilt, hsplit, flatMap_append, flatMap_cons, hemit]
    simp
  rw [hrebuilt]
  exact ((singleton_sublist.mpr hmem).cons_cons c).trans (sublist_append_right _ _)

/-! ### Moves that keep the order -/

/-- A move over positions that are dropped or move to the same place. -/
def Short (p : Plan) : Prop :=
  ∀ i t, i < p.size → p.dropped i = false → p.target i = some t →
    p.skips t = false ∧ t < i ∧
      ∀ j, t < j → j < i → p.dropped j = true ∨ p.target j = some t

variable (h : p.Short)
include h

theorem Short.strandedTargets_eq_nil : p.strandedTargets = [] := by
  refine eq_nil_iff_forall_not_mem.mpr fun t ht => ?_
  obtain ⟨-, hs, hne⟩ := mem_strandedTargets.mp ht
  obtain ⟨i, hi⟩ := exists_mem_of_ne_nil _ hne
  obtain ⟨hi, hd, ht⟩ := mem_movedTo.mp hi
  rw [(h i t hi hd ht).1] at hs
  cases hs

theorem Short.pairwise_emit (i : ℕ) : (p.emit i).Pairwise (· < ·) := by
  unfold emit
  split
  · exact List.Pairwise.nil
  · refine pairwise_cons.mpr ⟨fun j hj => ?_, pairwise_lt_range.filter _⟩
    obtain ⟨hj, hd, ht⟩ := mem_movedTo.mp hj
    exact (h j i hj hd ht).2.1

/-- What an earlier position emits comes before what a later one emits. -/
theorem Short.emit_lt {j x y : ℕ} (hij : i < j) (hx : x ∈ p.emit i)
    (hy : y ∈ p.emit j) : x < y := by
  obtain ⟨hsi, hx⟩ := mem_emit.mp hx
  obtain ⟨hsj, hy⟩ := mem_emit.mp hy
  have hjy : j ≤ y := by
    rcases hy with rfl | hy
    · exact le_rfl
    · obtain ⟨hy, hd, ht⟩ := mem_movedTo.mp hy
      exact (h y j hy hd ht).2.1.le
  refine lt_of_lt_of_le ?_ hjy
  rcases hx with rfl | hx
  · exact hij
  -- a move from beyond `j` to `i` would pass over `j`, which stays
  obtain ⟨hxs, hd, ht⟩ := mem_movedTo.mp hx
  by_contra hjx
  have hne : j ≠ x := fun e => by simp [skips, e, ht] at hsj
  rcases (h x i hxs hd ht).2.2 j hij (by omega) with hjd | hjt
  · simp [skips, hjd] at hsj
  · simp [skips, hjt] at hsj

/-- **A plan with short moves only keeps the order.** -/
theorem Short.rebuilt_eq_filter (hdrain : ∀ l, (drain l).Perm l)
    (htarget : ∀ i t, p.target i = some t → t < p.size) :
    p.rebuilt drain = (List.range p.size).filter fun i => !p.dropped i := by
  have hnil : drain [] = [] := (hdrain []).eq_nil
  have hsorted : (p.rebuilt drain).Pairwise (· < ·) := by
    rw [rebuilt, h.strandedTargets_eq_nil, hnil, flatMap_nil, append_nil, pairwise_flatMap]
    exact ⟨fun i _ => h.pairwise_emit i,
      pairwise_lt_range.imp fun hij x hx y hy => h.emit_lt hij hx hy⟩
  exact (rebuilt_perm hdrain htarget).eq_of_pairwise
    (fun _ _ _ _ hab hba => absurd hab (Nat.lt_asymm hba)) hsorted
    (pairwise_lt_range.filter _)

end Plan

end Relocation

end CodexPlus
