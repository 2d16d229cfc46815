/-
CodexPlus/TruncateMiddle.lean

Middle truncation keeps what fits.

The loop of `split_string` goes over the characters once.  The boundaries nearest to the two ends of
the budget cut the text into three parts, and each part moves only one of the loop's variables
(`scan_before`, `scan_middle`, `scan_after`).
-/
import CodexPlus.FileEdit
import CodexPlus.FileReadStream
import Mathlib.Order.Lattice.Nat

namespace CodexPlus

open List

namespace FileEdit

open FileRead

/-- `str::is_char_boundary` -/
def IsCharBoundary (s : Text) (i : ℕ) : Prop := ∃ before, before <+: s ∧ byteLen before = i

/-! ### Slices -/

theorem byteLen_cons (c : Char) (s : Text) : byteLen (c :: s) = c.utf8Size + byteLen s := by
  simp [byteLen, utf8]

theorem byteLen_concat (s : Text) (c : Char) : byteLen (s ++ [c]) = byteLen s + c.utf8Size := by
  rw [byteLen_append, byteLen_cons]
  rfl

theorem byteLen_le {before s : Text} (h : before <+: s) : byteLen before ≤ byteLen s := by
  obtain ⟨after, rfl⟩ := h
  rw [byteLen_append]
  omega

theorem takeUtf8Bytes_append (before after : Text) :
    takeUtf8Bytes (byteLen before) (before ++ after) = before := by
  induction before with
  | nil =>
    rcases after with - | ⟨c, rest⟩
    · rfl
    · exact if_neg (Nat.not_le.mpr c.utf8Size_pos)
  | cons c before ih =>
    rw [cons_append, takeUtf8Bytes, byteLen_cons, if_pos (Nat.le_add_right _ _),
      Nat.add_sub_cancel_left, ih]

theorem sliceFrom_append (before after : Text) :
    sliceFrom (before ++ after) (byteLen before) = after := by
  rw [sliceFrom, takeUtf8Bytes_append, drop_left]

/-! ### The loop -/

section Loop

-- `left` is `beginning_bytes` and `right` is `tail_start_target`
variable {left right len : ℕ} {before middle : Text}

theorem scan_concat (s : SplitState) (idx : ℕ) (seen : Text) (c : Char) :
    s.scan left right idx (seen ++ [c]) =
      (s.scan left right idx seen).step left right (idx + byteLen seen) c := by
  induction seen generalizing s idx with
  | nil => rfl
  | cons _ _ ih =>
    rw [cons_append, SplitState.scan, ih, byteLen_cons, ← Nat.add_assoc]
    rfl

theorem scan_before (h : byteLen before ≤ left) :
    SplitState.scan left right ⟨0, len, 0, false⟩ 0 before = ⟨byteLen before, len, 0, false⟩ := by
  induction before using List.reverseRecOn with
  | nil => rfl
  | append_singleton before c ih =>
    rw [byteLen_concat] at h ⊢
    rw [scan_concat, ih (by omega), Nat.zero_add, SplitState.step, if_pos h]

theorem scan_middle (len : ℕ) (hfits : byteLen before ≤ left)
    (h : ∀ early c, early ++ [c] <+: middle →
      left < byteLen (before ++ early ++ [c]) ∧ byteLen (before ++ early) < right) :
    SplitState.scan left right ⟨0, len, 0, false⟩ 0 (before ++ middle) =
      ⟨byteLen before, len, middle.length, false⟩ := by
  induction middle using List.reverseRecOn with
  | nil => simp [scan_before hfits]
  | append_singleton middle c ih =>
    obtain ⟨hend, hstart⟩ := h middle c prefix_rfl
    rw [byteLen_concat] at hend
    rw [← append_assoc, scan_concat, ih fun _ _ hearly => h _ _ (hearly.trans (prefix_append ..)),
      Nat.zero_add, SplitState.step, if_neg hend.not_ge, if_neg hstart.not_ge, length_append]
    rfl

theorem scan_after (after : Text) {seen : Text} {prefixEnd removedChars : ℕ}
    (h : SplitState.scan left right ⟨0, len, 0, false⟩ 0 seen = ⟨prefixEnd, len, removedChars, false⟩)
    (hlt : left < right) (hstart : right ≤ byteLen seen) :
    SplitState.scan left right ⟨0, len, 0, false⟩ 0 (seen ++ after) =
      ⟨prefixEnd, if after = [] then len else byteLen seen, removedChars, after ≠ []⟩ := by
  induction after using List.reverseRecOn with
  | nil => simp [h]
  | append_singleton after c ih =>
    have hle := byteLen_le (prefix_append seen after)
    rw [← append_assoc, scan_concat, ih, Nat.zero_add, SplitState.step, if_neg (by omega),
      if_pos (by omega)]
    by_cases hafter : after = [] <;> simp [hafter]

end Loop

/-! ### The cut -/

/-- The longest prefix within the first half of the budget is kept, and what stands behind the least
boundary that leaves room for it in the second half; the marker counts the characters between. -/
def IsMiddleCut (s : Text) (budget : ℕ) (cut : Text) : Prop :=
  ∃ before middle after, s = before ++ middle ++ after ∧
    IsGreatest {i | IsCharBoundary s i ∧ i ≤ budget / 2} (byteLen before) ∧
    IsLeast {i | IsCharBoundary s i ∧ byteLen s - (budget - budget / 2) ≤ i}
      (byteLen (before ++ middle)) ∧
    byteLen before + byteLen after ≤ budget ∧
    cut = before ++ ('…' :: decimal middle.length ++ " chars truncated…".toList) ++ after

theorem exists_cuts (s : Text) {left right : ℕ} (hlt : left < right) (hright : right ≤ byteLen s) :
    ∃ before middle after, s = before ++ middle ++ after ∧
      IsGreatest {i | IsCharBoundary s i ∧ i ≤ left} (byteLen before) ∧
      IsLeast {i | IsCharBoundary s i ∧ right ≤ i} (byteLen (before ++ middle)) := by
  have hbounded : BddAbove {i | IsCharBoundary s i ∧ i ≤ left} := ⟨left, fun i hi => hi.2⟩
  obtain ⟨leftEnd, hgreatest⟩ : ∃ i, IsGreatest {i | IsCharBoundary s i ∧ i ≤ left} i :=
    ⟨_, Nat.sSup_mem ⟨0, ⟨[], nil_prefix, rfl⟩, left.zero_le⟩ hbounded, fun _ => le_csSup hbounded⟩
  obtain ⟨rightStart, hleast⟩ : ∃ i, IsLeast {i | IsCharBoundary s i ∧ right ≤ i} i :=
    ⟨_, Nat.sInf_mem ⟨byteLen s, ⟨s, prefix_rfl, rfl⟩, hright⟩, fun _ => Nat.sInf_le⟩
  obtain ⟨⟨before, hbefore, rfl⟩, hle⟩ := hgreatest.1
  obtain ⟨⟨kept, ⟨after, rfl⟩, rfl⟩, hge⟩ := hleast.1
  obtain ⟨middle, rfl⟩ : before <+: kept := by
    refine ( prefix_or_prefix_of_prefix hbefore (prefix_append ..)).resolve_right fun hkept => ?_
    have := byteLen_le hkept
    omega
  exact ⟨before, middle, after, rfl, hgreatest, hleast⟩

/-- **The cut is exact**, whatever the widths of the characters. -/
theorem truncateMiddleChars_exact (s : Text) (budget : ℕ) (h : budget < byteLen s) :
    IsMiddleCut s budget (truncateMiddleChars s budget) := by
  have hlt : budget / 2 < byteLen s - (budget - budget / 2) := by omega
  obtain ⟨before, middle, after, hsplit, hgreatest, hleast⟩ := exists_cuts s hlt (Nat.sub_le ..)
  have hfits := hgreatest.1.2
  have hstart := hleast.1.2
  -- a boundary inside the middle would be nearer to an end of the budget
  have hmiddle : ∀ early c, early ++ [c] <+: middle →
      budget / 2 < byteLen (before ++ early ++ [c]) ∧
        byteLen (before ++ early) < byteLen s - (budget - budget / 2) := by
    rintro early c ⟨late, rfl⟩
    have hpos := c.utf8Size_pos
    have hconcat := byteLen_concat (before ++ early) c
    constructor <;> by_contra hle
    · have hbefore := byteLen_le (prefix_append before early)
      have := hgreatest.2 ⟨⟨_, ⟨late ++ after, by simp [hsplit]⟩, rfl⟩, not_lt.mp hle⟩
      omega
    · have hlate : before ++ early ++ [c] <+: before ++ (early ++ [c] ++ late) := ⟨late, by simp⟩
      have hlate := byteLen_le hlate
      have := hleast.2 ⟨⟨_, ⟨[c] ++ late ++ after, by simp [hsplit]⟩, rfl⟩, not_lt.mp hle⟩
      omega
  have hscan := scan_after after (scan_middle (byteLen s) hfits hmiddle) hlt hstart
  have hbytes := congrArg byteLen hsplit
  rw [byteLen_append] at hbytes
  refine ⟨before, middle, after, hsplit, hgreatest, hleast, by omega, ?_⟩
  have hsuffix : (if after = [] then byteLen s else byteLen (before ++ middle)) =
      byteLen (before ++ middle) := by
    split_ifs with hafter
    · rw [hsplit, hafter, append_nil]
    · rfl
  have hne : s ≠ [] := by rintro rfl; exact absurd h (Nat.not_lt_zero _)
  have hle := byteLen_le (prefix_append before middle)
  rw [← hsplit, hsuffix] at hscan
  simp only [truncateMiddleChars, if_neg h.not_ge, splitBudget, splitString, if_neg hne, hscan,
    if_neg hle.not_gt]
  rw [hsplit, sliceFrom_append, append_assoc before, takeUtf8Bytes_append]

/-- Characters of one to four bytes. -/
theorem truncateMiddleChars_of_mixed_widths :
    5 < byteLen "aé…😀b".toList ∧
      IsMiddleCut "aé…😀b".toList 5 (truncateMiddleChars "aé…😀b".toList 5) :=
  ⟨by decide, truncateMiddleChars_exact _ 5 (by decide)⟩

end FileEdit

end CodexPlus
