/-
CodexPlus/HeadTailBuffer.lean

A capped buffer that keeps the first and the last bytes of an output
(`utils/head-tail-buffer/src/lib.rs`).

`hold` is the buffer of a full head and of everything behind it.  Pushing to the tail
appends to what is held (`pushTail_hold`), and both `push_chunk` and `push_buffer` come
down to that.
-/
import Mathlib.Data.List.Induction

namespace CodexPlus

open List

structure HeadTailBuffer where
  head : List UInt8
  tail : List UInt8
  omittedBytes : ℕ
  deriving DecidableEq, Repr

namespace HeadTailBuffer

variable (maxBytes : ℕ)

def headBudget : ℕ := maxBytes / 2
def tailBudget : ℕ := maxBytes - headBudget maxBytes

/-- `Default` -/
def empty : HeadTailBuffer := ⟨[], [], 0⟩

/-- The bytes that do not fit are returned; a shorter chunk fits entirely. -/
def fillHead (b : HeadTailBuffer) (chunk : List UInt8) : HeadTailBuffer × List UInt8 :=
  let remainingHead := headBudget maxBytes - b.head.length
  ({ b with head := b.head ++ chunk.take remainingHead }, chunk.drop remainingHead)

def pushTail (b : HeadTailBuffer) (chunk : List UInt8) : HeadTailBuffer :=
  let remainingTail := tailBudget maxBytes - b.tail.length
  let excessTail := chunk.length - remainingTail
  -- old bytes of the tail go first, then the excess of the chunk
  let tail :=
    if excessTail < b.tail.length then b.tail.drop excessTail ++ chunk
    else chunk.drop (excessTail - b.tail.length)
  ⟨b.head, tail, b.omittedBytes + excessTail⟩

def pushChunk (b : HeadTailBuffer) (chunk : List UInt8) : HeadTailBuffer :=
  let (b, chunk) := b.fillHead maxBytes chunk
  b.pushTail maxBytes chunk

/-- An existing prefix is filled up, otherwise the source head is taken as it is. -/
def pushHead (b : HeadTailBuffer) (head : List UInt8) : HeadTailBuffer × List UInt8 :=
  if b.head = [] then ({ b with head }, []) else b.fillHead maxBytes head

/-- `cut` is where the ring of the source tail wraps (`as_slices`). -/
def pushBuffer (b buffer : HeadTailBuffer) (cut : ℕ) : HeadTailBuffer :=
  let (b, overflow) := pushHead maxBytes
    { b with omittedBytes := b.omittedBytes + buffer.omittedBytes } buffer.head
  if buffer.tail.length = tailBudget maxBytes then
    ⟨b.head, buffer.tail, b.omittedBytes + b.tail.length + overflow.length⟩
  else
    let b := b.pushTail maxBytes overflow
    if b.tail = [] then { b with tail := buffer.tail }
    else (b.pushTail maxBytes (buffer.tail.take cut)).pushTail maxBytes (buffer.tail.drop cut)

/-- The first and the last bytes of an output, and how many lie between them. -/
def summary (bytes : List UInt8) : HeadTailBuffer :=
  let first := min bytes.length (maxBytes / 2)
  let last := min (bytes.length - first) (maxBytes - maxBytes / 2)
  ⟨bytes.take first, bytes.drop (bytes.length - last), bytes.length - first - last⟩

/-- The buffer of a head and of the bytes behind it. -/
def hold (head rest : List UInt8) : HeadTailBuffer :=
  ⟨head, rest.drop (rest.length - tailBudget maxBytes), rest.length - tailBudget maxBytes⟩

theorem summary_eq_hold (bytes : List UInt8) :
    summary maxBytes bytes =
      hold maxBytes (bytes.take (headBudget maxBytes)) (bytes.drop (headBudget maxBytes)) := by
  simp only [summary, hold, headBudget, tailBudget, length_drop, drop_drop, HeadTailBuffer.mk.injEq]
  refine ⟨?_, ?_, by omega⟩
  · rcases Nat.le_total bytes.length (maxBytes / 2) with h | h
    · rw [Nat.min_eq_left h, take_length, take_of_length_le h]
    · rw [Nat.min_eq_right h]
  · rcases Nat.le_total bytes.length (maxBytes / 2) with h | h
    · rw [drop_of_length_le (by omega), drop_of_length_le (by omega)]
    · congr 1
      omega

/-- The tail of a long rest is all that counts. -/
theorem hold_append (head front : List UInt8) {rest : List UInt8}
    (h : tailBudget maxBytes ≤ rest.length) :
    hold maxBytes head (front ++ rest) = ⟨head, rest.drop (rest.length - tailBudget maxBytes),
      front.length + (rest.length - tailBudget maxBytes)⟩ := by
  simp only [hold, length_append, HeadTailBuffer.mk.injEq, true_and]
  refine ⟨?_, by omega⟩
  rw [drop_append, drop_of_length_le (l := front) (by omega), nil_append]
  congr 1
  omega

/-- **The tail.**  What is pushed to the tail is held behind the rest. -/
theorem pushTail_hold (head rest chunk : List UInt8) :
    (hold maxBytes head rest).pushTail maxBytes chunk = hold maxBytes head (rest ++ chunk) := by
  simp only [pushTail, hold, length_drop, length_append, HeadTailBuffer.mk.injEq, true_and]
  refine ⟨?_, by omega⟩
  split
  · rw [drop_drop, ← drop_append_of_le_length (by omega)]
    congr 1
    omega
  · rw [drop_append, drop_of_length_le (l := rest) (by omega), nil_append]
    congr 1
    omega

variable {maxBytes} {b : HeadTailBuffer} {x : List UInt8}

section

variable (h : b.head = x.take (headBudget maxBytes))
include h

theorem fillHead_eq (chunk : List UInt8) :
    b.fillHead maxBytes chunk = ({ b with head := (x ++ chunk).take (headBudget maxBytes) },
      chunk.drop (headBudget maxBytes - x.length)) := by
  have hroom : headBudget maxBytes - b.head.length = headBudget maxBytes - x.length := by
    rw [h, length_take]
    omega
  rw [fillHead, hroom, take_append, h]

theorem pushHead_eq (y : List UInt8) :
    b.pushHead maxBytes (y.take (headBudget maxBytes)) =
      ({ b with head := (x ++ y).take (headBudget maxBytes) },
        (y.take (headBudget maxBytes)).drop (headBudget maxBytes - x.length)) := by
  rw [pushHead]
  split
  · next hempty =>
    rcases take_eq_nil_iff.mp (h ▸ hempty) with hzero | rfl
    · simp [hzero]
    · simp
  · rw [fillHead_eq h, take_append, take_append, take_take, Nat.min_eq_left (Nat.sub_le _ _)]

end

variable (maxBytes x)

/-- **One chunk.** -/
theorem pushChunk_summary (chunk : List UInt8) :
    (summary maxBytes x).pushChunk maxBytes chunk = summary maxBytes (x ++ chunk) := by
  rw [summary_eq_hold, summary_eq_hold, pushChunk, fillHead_eq rfl, drop_append]
  exact pushTail_hold maxBytes _ _ _

/-- **A whole buffer.** -/
theorem pushBuffer_summary (y : List UInt8) (cut : ℕ) :
    (summary maxBytes x).pushBuffer maxBytes (summary maxBytes y) cut = summary maxBytes (x ++ y) := by
  rw [summary_eq_hold, summary_eq_hold, summary_eq_hold, pushBuffer, hold, hold, pushHead_eq rfl]
  set H := headBudget maxBytes
  set overflow := (y.take H).drop (H - x.length) with hoverflow
  have hrest : (x ++ y).drop H = x.drop H ++ overflow ++ y.drop H := by
    rw [drop_append, append_assoc, hoverflow]
    nth_rewrite 1 [← take_append_drop H y]
    rw [drop_append]
    rcases Nat.le_total H y.length with h | h
    · rw [length_take, Nat.min_eq_left h, Nat.sub_eq_zero_of_le (Nat.sub_le _ _), drop_zero]
    · rw [drop_of_length_le h, drop_nil]
  rw [hrest]
  simp only
  split
  · next hfull =>
    rw [length_drop] at hfull
    rw [hold_append maxBytes _ _ (by omega)]
    simp only [length_append, length_drop (i := (x.drop H).length - _), HeadTailBuffer.mk.injEq,
      true_and]
    omega
  · next hpart =>
    -- the source has omitted nothing
    have hnone : (y.drop H).length - tailBudget maxBytes = 0 := by
      rw [length_drop] at hpart
      omega
    have hhold := pushTail_hold maxBytes ((x ++ y).take H) (x.drop H) overflow
    rw [hold] at hhold
    rw [hnone, Nat.add_zero, drop_zero, hhold]
    split
    · next hempty =>
      have hnil : x.drop H ++ overflow = [] := by
        rw [hold, drop_eq_nil_iff] at hempty
        rw [hnone, drop_zero] at hpart
        exact length_eq_zero_iff.mp (by omega)
      rw [hnil, nil_append, hold, hold, hnone]
      simp
    · rw [pushTail_hold, pushTail_hold, append_assoc _ (take _ _), take_append_drop]

variable {x}

/-- **The buffer is a summary of the concatenation**, however the output is cut into chunks, and two
buffers put together are the buffer of both outputs. -/
theorem buffer_is_summary :
    (∀ chunks : List (List UInt8),
      chunks.foldl (pushChunk maxBytes) empty = summary maxBytes chunks.flatten) ∧
    ∀ (xs ys : List (List UInt8)) (cut : ℕ),
      (xs.foldl (pushChunk maxBytes) empty).pushBuffer maxBytes
        (ys.foldl (pushChunk maxBytes) empty) cut = summary maxBytes (xs.flatten ++ ys.flatten) := by
  have hchunks : ∀ chunks : List (List UInt8),
      chunks.foldl (pushChunk maxBytes) empty = summary maxBytes chunks.flatten := by
    intro chunks
    induction chunks using List.reverseRecOn with
    | nil => simp [summary, empty]
    | append_singleton chunks chunk ih =>
      rw [foldl_append, ih, foldl_cons, foldl_nil, pushChunk_summary]
      simp
  refine ⟨hchunks, fun xs ys cut => ?_⟩
  rw [hchunks, hchunks, pushBuffer_summary]

end HeadTailBuffer

end CodexPlus
