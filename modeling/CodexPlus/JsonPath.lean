/-
CodexPlus/JsonPath.lean

Paths of keys through nested JSON objects: the value at the end of a path, and whether a
value decides what stands there.
-/
import CodexPlus.Json
import CodexPlus.Entries

namespace CodexPlus

namespace Json

def isNull : Json → Bool
  | null => true
  | _ => false

def isObject : Json → Bool
  | object _ => true
  | _ => false

def get (key : String) : Json → Option Json
  | object entries => entries.lookup key
  | _ => none

/-- The value at the end of a path. -/
def valueAt : List String → Json → Option Json
  | [], value => some value
  | key :: path, value => (value.get key).bind (valueAt path)

/-- The value has something at the path, or on the way to it something that is no object. -/
def mentions : List String → Json → Bool
  | [], _ => true
  | key :: path, object entries =>
    match entries.lookup key with
    | some value => mentions path value
    | none => false
  | _ :: _, _ => true

/-- An object stands for an object, anything else for itself. -/
def Agrees (value expected : Json) : Prop :=
  if expected.isObject then value.isObject = true else value = expected

theorem Agrees.refl (value : Json) : value.Agrees value := by
  rw [Agrees]
  split
  · next h => exact h
  · rfl

/-- Something that agrees with `expected` stands at the path. -/
def Has (value : Json) (path : List String) (expected : Json) : Prop :=
  ∃ found, value.valueAt path = some found ∧ found.Agrees expected

variable {value : Json} {path : List String}

theorem Has.of_valueAt {expected : Json}
    (h : value.valueAt path = some expected) : value.Has path expected :=
  ⟨expected, h, .refl expected⟩

theorem exists_object (h : value.isObject) : ∃ entries, value = object entries := by
  cases value with
  | object entries => exact ⟨entries, rfl⟩
  | _ => cases h

theorem mentions_of_not_isObject (h : ¬ value.isObject) (path : List String) :
    value.mentions path := by
  rcases path with - | ⟨key, path⟩
  · rfl
  · cases value with
    | object => exact absurd rfl h
    | _ => rfl

theorem valueAt_eq_none (h : ¬ value.mentions path) : value.valueAt path = none := by
  induction path generalizing value with
  | nil => exact absurd rfl h
  | cons key _ ih =>
    cases value with
    | object entries =>
      rw [mentions] at h
      rw [valueAt, get]
      rcases hget : entries.lookup key with - | value
      · rfl
      · rw [hget] at h
        exact ih h
    | _ => exact absurd rfl h

/-- The path `key :: path` of an object. -/
theorem valueAt_cons_object (key : String) (path : List String) (entries : List (String × Json)) :
    (object entries).valueAt (key :: path) = (entries.lookup key).bind (valueAt path) := rfl

/-! ### Keys are unique -/

mutual

/-- No object of the value has a key twice. -/
def uniqueKeys : Json → Bool
  | array items => uniqueKeysItems items
  | object entries => (entries.map Prod.fst).Nodup && uniqueKeysEntries entries
  | _ => true

def uniqueKeysItems : List Json → Bool
  | [] => true
  | item :: items => uniqueKeys item && uniqueKeysItems items

def uniqueKeysEntries : List (String × Json) → Bool
  | [] => true
  | (_, value) :: entries => uniqueKeys value && uniqueKeysEntries entries

end

variable {entries : List (String × Json)}

theorem uniqueKeys_object :
    (object entries).uniqueKeys ↔ (entries.map Prod.fst).Nodup ∧ uniqueKeysEntries entries := by
  rw [uniqueKeys, Bool.and_eq_true, decide_eq_true_iff]

theorem uniqueKeys_of_lookup (h : uniqueKeysEntries entries)
    {key : String} (hget : entries.lookup key = some value) : value.uniqueKeys := by
  induction entries with
  | nil => cases hget
  | cons entry _ ih =>
    obtain ⟨head, first⟩ := entry
    rw [uniqueKeysEntries, Bool.and_eq_true] at h
    by_cases hkey : key = head
    · subst hkey
      rw [List.lookup_cons_self] at hget
      cases hget
      exact h.1
    · rw [Entries.lookup_cons_of_ne hkey] at hget
      exact ih h.2 hget

end Json

end CodexPlus
