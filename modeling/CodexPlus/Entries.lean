/-
CodexPlus/Entries.lean

Maps as lists of entries, read with `List.lookup`: an entry replaces the one with its key in
place or goes last, as in an insertion-ordered map.

A loop that inserts, changes or removes one key at a time has, at each key, the effect of
the one entry with that key (`lookup_foldlM`).
-/
import CodexPlus.Text

namespace CodexPlus

open List

namespace Entries

variable {κ α β : Type*} [DecidableEq κ]

def insert (key : κ) (value : α) : List (κ × α) → List (κ × α)
  | [] => [(key, value)]
  | (other, previous) :: rest =>
    if other = key then (key, value) :: rest else (other, previous) :: insert key value rest

def remove (key : κ) (entries : List (κ × α)) : List (κ × α) := entries.filter (·.1 ≠ key)

theorem lookup_cons_of_ne {key other : κ} (h : other ≠ key) (value : α) (rest : List (κ × α)) :
    ((key, value) :: rest).lookup other = rest.lookup other := by
  rw [lookup_cons, beq_false_of_ne h]

theorem lookup_insert (key other : κ) (value : α) (entries : List (κ × α)) :
    (insert key value entries).lookup other =
      if other = key then some value else entries.lookup other := by
  induction entries with
  | nil =>
    by_cases h : other = key
    · rw [if_pos h, h, insert, lookup_cons_self]
    · rw [if_neg h, insert, lookup_cons_of_ne h]
  | cons entry _ ih =>
    obtain ⟨head, previous⟩ := entry
    rw [insert]
    by_cases hhead : head = key
    · subst hhead
      rw [if_pos rfl]
      by_cases h : other = head
      · rw [if_pos h, h, lookup_cons_self]
      · rw [if_neg h, lookup_cons_of_ne h, lookup_cons_of_ne h]
    · rw [if_neg hhead]
      by_cases h : other = head
      · rw [h, lookup_cons_self, lookup_cons_self, if_neg hhead]
      · rw [lookup_cons_of_ne h, lookup_cons_of_ne h, ih]

theorem lookup_remove (key other : κ) (entries : List (κ × α)) :
    (remove key entries).lookup other = if other = key then none else entries.lookup other := by
  induction entries with
  | nil => simp [remove]
  | cons entry _ ih =>
    obtain ⟨head, value⟩ := entry
    rw [remove] at ih ⊢
    by_cases hhead : head = key
    · -- the entry goes
      rw [filter_cons_of_neg (by simpa using hhead), ih]
      by_cases h : other = key
      · rw [if_pos h, if_pos h]
      · rw [if_neg h, if_neg h, lookup_cons_of_ne fun heq => h (heq.trans hhead)]
    · rw [filter_cons_of_pos (by simpa using hhead)]
      by_cases h : other = head
      · rw [h, lookup_cons_self, lookup_cons_self, if_neg hhead]
      · rw [lookup_cons_of_ne h, lookup_cons_of_ne h, ih]

theorem lookup_eq_none_of_notMem {key : κ} {entries : List (κ × α)}
    (h : key ∉ entries.map Prod.fst) : entries.lookup key = none := by
  rw [lookup_eq_none_iff]
  intro entry hmem
  rw [bne_iff_ne]
  rintro rfl
  exact h (mem_map_of_mem hmem)

section Loop

/-! A loop that changes, with every entry of a layer, the key of that entry. -/

variable {ε : Type*} {step : List (κ × α) → κ × β → Except ε (List (κ × α))}
  {change : κ → Option α → β → Option α} {layer : List (κ × β)} {entries entries' : List (κ × α)}
  (hstep : ∀ entries entry entries', step entries entry = .ok entries' → ∀ key,
    entries'.lookup key =
      if key = entry.1 then change key (entries.lookup key) entry.2 else entries.lookup key)

include hstep

/-- At each key it makes the one change of the layer's entry. -/
theorem lookup_foldlM (hunique : (layer.map Prod.fst).Nodup)
    (h : layer.foldlM step entries = .ok entries') (key : κ) :
    entries'.lookup key =
      match layer.lookup key with
      | some value => change key (entries.lookup key) value
      | none => entries.lookup key := by
  induction layer generalizing entries with
  | nil =>
    cases h
    rfl
  | cons entry rest ih =>
    obtain ⟨head, value⟩ := entry
    obtain ⟨hhead, hrest⟩ := nodup_cons.mp hunique
    obtain ⟨between, hone, h⟩ := bind_eq_ok.mp h
    rw [ih hrest h, hstep entries (head, value) between hone key]
    by_cases hkey : key = head
    · subst hkey
      -- the rest of the layer has no entry with this key
      rw [if_pos rfl, lookup_eq_none_of_notMem hhead, lookup_cons_self]
    · rw [if_neg hkey, lookup_cons_of_ne hkey]

/-- Every entry of the layer has its turn, and finds its key as it was at first. -/
theorem exists_step_of_foldlM (h : layer.foldlM step entries = .ok entries') {key : κ} {value : β}
    (hget : layer.lookup key = some value) :
    ∃ between next, between.lookup key = entries.lookup key ∧
      step between (key, value) = .ok next := by
  induction layer generalizing entries with
  | nil => cases hget
  | cons entry _ ih =>
    obtain ⟨head, first⟩ := entry
    obtain ⟨between, hone, h⟩ := bind_eq_ok.mp h
    by_cases hkey : key = head
    · subst hkey
      rw [lookup_cons_self] at hget
      cases hget
      exact ⟨entries, between, rfl, hone⟩
    · rw [lookup_cons_of_ne hkey] at hget
      obtain ⟨between', next, hsame, hnext⟩ := ih h hget
      refine ⟨between', next, ?_, hnext⟩
      rw [hsame, hstep entries (head, first) between hone key, if_neg hkey]

end Loop

/-- Inserting the entries of a layer one by one. -/
theorem lookup_foldl_insert {layer : List (κ × α)} (hunique : (layer.map Prod.fst).Nodup)
    (entries : List (κ × α)) (key : κ) :
    (layer.foldl (fun entries entry => insert entry.1 entry.2 entries) entries).lookup key =
      (layer.lookup key).or (entries.lookup key) := by
  induction layer generalizing entries with
  | nil => rfl
  | cons entry _ ih =>
    obtain ⟨head, value⟩ := entry
    obtain ⟨hhead, hrest⟩ := nodup_cons.mp hunique
    rw [foldl_cons, ih hrest, lookup_insert]
    by_cases hkey : key = head
    · subst hkey
      rw [if_pos rfl, lookup_eq_none_of_notMem hhead, lookup_cons_self]
      rfl
    · rw [if_neg hkey, lookup_cons_of_ne hkey]

end Entries

end CodexPlus
