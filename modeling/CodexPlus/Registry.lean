/-
CodexPlus/Registry.lean

Tables that are filled entry by entry, where a key that is taken may only be given the
value it has.

`Records` says that a table holds a list of entries and nothing else; each registration
adds its entry to the list.
-/
import Mathlib.Logic.Function.Basic
import Mathlib.Data.List.Basic

namespace CodexPlus

namespace Registry

variable {κ α : Type*} {table : κ → Option α} {entries : List (κ × α)} {key : κ} {value : α}

/-- The table holds the entries and nothing else. -/
def Records (table : κ → Option α) (entries : List (κ × α)) : Prop :=
  ∀ key value, table key = some value ↔ (key, value) ∈ entries

theorem records_nil : Records (fun _ : κ => (none : Option α)) [] := by
  intro key value
  simp

/-- Giving a key the value that it has, or a first one, adds the entry. -/
theorem Records.update [DecidableEq κ] (h : Records table entries)
    (hsame : ∀ existing, table key = some existing → existing = value) :
    Records (Function.update table key (some value)) (entries ++ [(key, value)]) := by
  intro other found
  by_cases hkey : other = key
  · subst hkey
    rw [Function.update_self, List.mem_append, List.mem_singleton]
    constructor
    · intro heq
      cases heq
      exact .inr rfl
    · rintro (hmem | heq)
      · rw [hsame found ((h other found).mpr hmem)]
      · cases heq
        rfl
  · rw [Function.update_of_ne hkey, h other found, List.mem_append, List.mem_singleton]
    exact ⟨.inl, fun hmem => hmem.resolve_right fun heq => hkey (congrArg Prod.fst heq)⟩

theorem Records.value_unique (h : Records table entries) {value' : α}
    (hmem : (key, value) ∈ entries) (hmem' : (key, value') ∈ entries) : value = value' := by
  have hvalue : table key = some value := (h key value).mpr hmem
  rw [(h key value').mpr hmem'] at hvalue
  exact (Option.some.inj hvalue).symm

end Registry

end CodexPlus
