/-
CodexPlus/Text.lean

The character and string functions of Rust's standard library that the modelled
code calls, on `String` and on lists of characters: the Unicode `White_Space` and
control classes, `trim` and its one-sided forms, and the repository's
`truncate_utf8`, which cuts a string to a number of UTF-8 bytes at a character
boundary; and what a `?` in a function that returns a `Result` lets through.
-/
import Mathlib.Data.List.DropRight
import Mathlib.Data.List.Induction

namespace CodexPlus

open List

universe u v

variable {α β : Type u} {ε : Type v}

theorem bind_eq_ok {x : Except ε α} {f : α → Except ε β} {b : β} :
    (x >>= f) = .ok b ↔ ∃ a, x = .ok a ∧ f a = .ok b := by
  rcases x with error | a <;> simp [bind, Except.bind]

theorem ok_bind (a : α) (f : α → Except ε β) : (Except.ok a >>= f) = f a := rfl

theorem map_eq_ok {x : Except ε α} {f : α → β} {b : β} :
    x.map f = .ok b ↔ ∃ a, x = .ok a ∧ f a = b := by
  rcases x with error | a <;> simp [Except.map]

/-- `char::is_whitespace`: the Unicode property `White_Space`. -/
def isWhitespace (c : Char) : Bool :=
  (0x09 ≤ c.toNat && c.toNat ≤ 0x0D) || c.toNat = 0x20 || c.toNat = 0x85 || c.toNat = 0xA0 ||
    c.toNat = 0x1680 || (0x2000 ≤ c.toNat && c.toNat ≤ 0x200A) || c.toNat = 0x2028 ||
    c.toNat = 0x2029 || c.toNat = 0x202F || c.toNat = 0x205F || c.toNat = 0x3000

/-- `char::is_control`: the general category `Cc`. -/
def isControl (c : Char) : Bool :=
  c.toNat ≤ 0x1F || (0x7F ≤ c.toNat && c.toNat ≤ 0x9F)

/-- `str::trim_start` -/
def trimStart (cs : List Char) : List Char := cs.dropWhile isWhitespace

/-- `str::trim_end` -/
def trimEnd (cs : List Char) : List Char := cs.rdropWhile isWhitespace

/-- `str::trim` -/
def trim (cs : List Char) : List Char := trimEnd (trimStart cs)

theorem trimStart_append {cs : List Char} (h : trimStart cs ≠ []) (rest : List Char) :
    trimStart (cs ++ rest) = trimStart cs ++ rest := by
  unfold trimStart at h ⊢
  rw [dropWhile_append]
  split
  · next hnil => exact absurd (by simpa using hnil) h
  · rfl

theorem trimEnd_append {cs : List Char} (h : trimEnd cs ≠ []) (rest : List Char) :
    trimEnd (rest ++ cs) = rest ++ trimEnd cs := by
  have hstart : trimStart cs.reverse ≠ [] := by simpa [trimEnd, trimStart, List.rdropWhile] using h
  show (trimStart (rest ++ cs).reverse).reverse = rest ++ (trimStart cs.reverse).reverse
  rw [reverse_append, trimStart_append hstart, reverse_append, reverse_reverse]

variable (cs : List Char)

theorem trimEnd_append_whitespace {ws : List Char}
    (h : ∀ c ∈ ws, isWhitespace c) : trimEnd (cs ++ ws) = trimEnd cs := by
  induction ws using List.reverseRecOn with
  | nil => rw [append_nil]
  | append_singleton _ c ih =>
    rw [← append_assoc, trimEnd, rdropWhile_concat_pos _ _ _ (h c (by simp))]
    exact ih fun c hc => h c (by simp [hc])

theorem trim_trimStart : trim (trimStart cs) = trim cs := by
  unfold trim trimStart
  rw [dropWhile_idempotent]

theorem trim_trimEnd : trim (trimEnd cs) = trim cs := by
  have hsplit : trimEnd cs ++ cs.rtakeWhile isWhitespace = cs := rdropWhile_append_rtakeWhile
  have hws : ∀ c ∈ cs.rtakeWhile isWhitespace, isWhitespace c := fun _ => mem_rtakeWhile_imp
  unfold trim
  by_cases h : trimStart (trimEnd cs) = []
  · -- nothing but whitespace
    have hall : trimStart cs = [] := by
      rw [← hsplit]
      refine dropWhile_eq_nil_iff.mpr fun c hc => ?_
      rcases mem_append.mp hc with hc | hc
      · exact dropWhile_eq_nil_iff.mp h c hc
      · exact hws c hc
    rw [h, hall]
  · conv_rhs => rw [← hsplit, trimStart_append h, trimEnd_append_whitespace _ hws]

theorem trim_trim : trim (trim cs) = trim cs := by
  show trim (trimEnd (trimStart cs)) = _
  rw [trim_trimEnd, trim_trimStart]

/-- The longest list of leading characters that takes at most `maxBytes` bytes in UTF-8. -/
def takeUtf8Bytes : Nat → List Char → List Char
  | _, [] => []
  | maxBytes, c :: cs =>
    if c.utf8Size ≤ maxBytes then c :: takeUtf8Bytes (maxBytes - c.utf8Size) cs else []

/-- `truncate_utf8` -/
def truncateUtf8 (value : String) (maxBytes : Nat) : String :=
  if value.utf8ByteSize ≤ maxBytes then value
  else String.ofList (takeUtf8Bytes maxBytes value.toList)

end CodexPlus
