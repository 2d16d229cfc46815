/-
CodexPlus/FaultyStore.lean

A flat store of named values whose operations may fail.

`faults` decides, operation by operation, what goes wrong.  A read that fails
changes nothing.  A write or a removal that fails may leave anything under its
key and touches nothing else: `Fault.leaves` is what it leaves there.  An
operation reports `notFound` for a key that holds nothing; a fault reports it
only for a write, whose surroundings may be missing.
-/
import Mathlib.Data.Nat.Notation
import Mathlib.Logic.Function.Basic

namespace CodexPlus

namespace FaultyStore

inductive ErrorKind where
  | notFound
  | other
  deriving DecidableEq, Repr

structure Fault (V : Type) where
  kind : ErrorKind
  leaves : Option V

structure World (K V : Type) where
  files : K → Option V
  faults : ℕ → Option (Fault V)
  /-- The number of operations so far. -/
  ops : ℕ

namespace World

variable {K V : Type}

def next (w : World K V) : World K V := { w with ops := w.ops + 1 }

/-! ### Operations that change nothing -/

/-- Whether the key holds a value. -/
def stat (w : World K V) (k : K) : Except ErrorKind Unit × World K V :=
  match w.faults w.ops with
  | some _ => (.error .other, w.next)
  | none => (if (w.files k).isSome then .ok () else .error .notFound, w.next)

def read (w : World K V) (k : K) : Except ErrorKind V × World K V :=
  match w.faults w.ops with
  | some _ => (.error .other, w.next)
  | none =>
    match w.files k with
    | some v => (.ok v, w.next)
    | none => (.error .notFound, w.next)

/-- An operation on the surroundings of a key, such as creating its directory. -/
def prepare (w : World K V) : Except ErrorKind Unit × World K V :=
  match w.faults w.ops with
  | some _ => (.error .other, w.next)
  | none => (.ok (), w.next)

section Reading

variable {w w' : World K V} {k : K} {result : Except ErrorKind Unit}

@[simp] theorem next_files (w : World K V) : w.next.files = w.files := rfl

theorem stat_files (h : w.stat k = (result, w')) : w'.files = w.files := by
  unfold stat at h
  split at h <;> cases h <;> rfl

theorem prepare_files (h : w.prepare = (result, w')) : w'.files = w.files := by
  unfold prepare at h
  split at h <;> cases h <;> rfl

/-- What a read says of its key. -/
theorem read_spec {result : Except ErrorKind V} (h : w.read k = (result, w')) :
    w'.files = w.files ∧ (∀ v, result = .ok v → w.files k = some v) ∧
      (result = .error .notFound → w.files k = none) := by
  unfold read at h
  split at h
  · cases h
    exact ⟨rfl, nofun, nofun⟩
  · split at h <;> next hv =>
      cases h
      exact ⟨rfl, by simp [hv], by simp [hv]⟩

end Reading

/-! ### Operations that change a key -/

variable [DecidableEq K]

def setFile (w : World K V) (k : K) (v : Option V) : World K V :=
  { w with files := Function.update w.files k v }

def write (w : World K V) (k : K) (v : V) : Except ErrorKind Unit × World K V :=
  match w.faults w.ops with
  | some fault => (.error fault.kind, w.next.setFile k fault.leaves)
  | none => (.ok (), w.next.setFile k (some v))

def remove (w : World K V) (k : K) : Except ErrorKind Unit × World K V :=
  match w.faults w.ops with
  | some fault => (.error .other, w.next.setFile k fault.leaves)
  | none =>
    match w.files k with
    | some _ => (.ok (), w.next.setFile k none)
    | none => (.error .notFound, w.next)

section Writing

variable {w w' : World K V} {k : K} {v : V} {result : Except ErrorKind Unit}

/-- A write changes its key only, and to the value if it succeeds. -/
theorem write_spec (h : w.write k v = (result, w')) :
    ∃ left, w'.files = Function.update w.files k left ∧ (result = .ok () → left = some v) := by
  unfold write at h
  split at h
  · cases h
    exact ⟨_, rfl, nofun⟩
  · cases h
    exact ⟨_, rfl, fun _ => rfl⟩

theorem remove_spec (h : w.remove k = (result, w')) :
    ∃ left, w'.files = Function.update w.files k left ∧ (result = .ok () → left = none) := by
  unfold remove at h
  split at h
  · cases h
    exact ⟨_, rfl, nofun⟩
  · split at h
    · cases h
      exact ⟨_, rfl, fun _ => rfl⟩
    · cases h
      exact ⟨w.files k, (Function.update_eq_self k w.files).symm, nofun⟩

end Writing

/-! ### Stores without faults -/

/-- Every operation succeeds if its key allows it. -/
def Reliable (w : World K V) : Prop := ∀ n, w.faults n = none

section Reliability

variable {w : World K V} (h : w.Reliable) (k : K)

include h

omit [DecidableEq K] in
theorem Reliable.next : w.next.Reliable := h

theorem Reliable.setFile (v : Option V) : (w.next.setFile k v).Reliable := h

omit [DecidableEq K] in
theorem Reliable.stat :
    w.stat k = (if (w.files k).isSome then .ok () else .error .notFound, w.next) := by
  rw [World.stat, h]

omit [DecidableEq K] in
theorem Reliable.read_some {v : V} (hk : w.files k = some v) : w.read k = (.ok v, w.next) := by
  rw [World.read, h]
  simp [hk]

omit [DecidableEq K] in
theorem Reliable.read_none (hk : w.files k = none) : w.read k = (.error .notFound, w.next) := by
  rw [World.read, h]
  simp [hk]

theorem Reliable.write (v : V) : w.write k v = (.ok (), w.next.setFile k (some v)) := by
  rw [World.write, h]

theorem Reliable.remove_some (hk : (w.files k).isSome) :
    w.remove k = (.ok (), w.next.setFile k none) := by
  obtain ⟨v, hv⟩ := Option.isSome_iff_exists.mp hk
  rw [World.remove, h]
  simp [hv]

end Reliability

end World

end FaultyStore

end CodexPlus
