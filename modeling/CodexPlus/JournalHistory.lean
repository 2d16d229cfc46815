/-
CodexPlus/JournalHistory.lean

What journal replay should answer, as a plain fold over what happened.

The specification does not look at files or caches.  A `History` is a fold over the
events of a run: which generation was created from which sources, which records were
appended to it, and where a crash cut its segments.  `History.answer` searches the
generation and then its sources, newest first, for the newest surviving record of a key.

Tombstones, the `Started` records that replay itself persists, take up bytes in a
segment but are ignored by the specification.  `History.answer_eq` says that a search that
does see them gives the same answer, as long as they were only written for keys without
any record in the lineage (`History.WF`).
-/
import CodexPlus.JournalSegment
import Mathlib.Logic.Function.Basic

namespace CodexPlus

open List

namespace Journal

variable {R : Type} (c : Codec R)

/-! ### Histories -/

/-- A complete record of a segment; a tombstone is one that replay has written. -/
structure LogEntry (R : Type) where
  state : DurableKeyState R
  tombstone : Bool

/-- What happened to the journals of a machine. -/
inductive Event (R : Type) where
  | created (directory : String) (sources : List String)
  | appended (directory : String) (state : DurableKeyState R)
  | tombstone (directory key : String)
  | cut (lengths : String → Nat → Nat)

/-- The sources of every generation and the surviving records of its segments. -/
structure History (R : Type) where
  sources : String → List String
  log : String → Nat → List (LogEntry R)

def History.empty : History R := ⟨fun _ => [], fun _ _ => []⟩

def History.push (h : History R) (directory : String) (entry : LogEntry R) : History R :=
  { h with
    log := Function.update h.log directory
      (Function.update (h.log directory) (keySegment c entry.state.key)
        (h.log directory (keySegment c entry.state.key) ++ [entry])) }

/-- The bytes of an entry in its segment, without the newline. -/
def LogEntry.frame (entry : LogEntry R) : List UInt8 := Journal.frame c entry.state

def History.apply (h : History R) : Event R → History R
  | .created directory sources => { h with sources := Function.update h.sources directory sources }
  | .appended directory state => h.push c directory ⟨state, false⟩
  | .tombstone directory key => h.push c directory ⟨.started key, true⟩
  | .cut lengths =>
    { h with
      log := fun directory segment =>
        LineLog.keepWithin (LogEntry.frame c) (lengths directory segment) (h.log directory segment) }

def historyOf (events : List (Event R)) : History R := events.foldl (History.apply c) .empty

/-- The newest appended record of a key in a generation. -/
def History.newestAppended (h : History R) (directory key : String) : Option (DurableKeyState R) :=
  newestIn (((h.log directory (keySegment c key)).filter (!·.tombstone)).map (·.state)) key

/-- The result a newest record stands for. -/
def resultOf : Option (DurableKeyState R) → Option R
  | some (.result _ result) => some result
  | _ => none

/-- **The specification of replay.**  The newest appended record of the key, in the
generation itself and then in its sources from newest to oldest. -/
def History.answer (h : History R) (directory key : String) : Option R :=
  resultOf ((directory :: h.sources directory).findSome? fun d => h.newestAppended c d key)

/-! ### Searches that see the tombstones -/

/-- The newest record of a key in a generation, tombstones included. -/
def History.newest (h : History R) (directory key : String) : Option (DurableKeyState R) :=
  newestIn ((h.log directory (keySegment c key)).map (·.state)) key

/-- The newest record of a key in a list of generations. -/
def History.newestOf (h : History R) (directories : List String) (key : String) :
    Option (DurableKeyState R) :=
  directories.findSome? fun d => h.newest c d key

/-- Generations form chains, and a tombstone is the first record of its key in its
generation, written when no source had one. -/
structure History.WF (h : History R) : Prop where
  chain : ∀ directory, h.sources directory = [] ∨
    ∃ previous, h.sources directory = previous :: h.sources previous
  started : ∀ directory segment, ∀ entry ∈ h.log directory segment,
    entry.tombstone → entry.state = .started entry.state.key
  first : ∀ directory key,
    ((h.log directory (keySegment c key)).filter (·.state.key = key)).Pairwise
      fun _ later => later.tombstone = false
  bare : ∀ directory key, ∀ entry ∈ h.log directory (keySegment c key), entry.state.key = key →
    entry.tombstone → ∀ d ∈ h.sources directory, h.newestAppended c d key = none

open History

section Search

variable {c} {h : History R} {directory key : String}

theorem newestIn_append_singleton (log : List (DurableKeyState R)) (state : DurableKeyState R) :
    newestIn (log ++ [state]) key = if state.key = key then some state else newestIn log key := by
  unfold newestIn
  by_cases hkey : state.key = key <;> simp [hkey]

theorem newestIn_eq_none {log : List (DurableKeyState R)} :
    newestIn log key = none ↔ ∀ state ∈ log, state.key ≠ key := by
  simp [newestIn]

theorem History.newest_eq_none : h.newest c directory key = none ↔
    ∀ entry ∈ h.log directory (keySegment c key), entry.state.key ≠ key := by
  simp [newest, newestIn_eq_none]

theorem History.newestAppended_eq_none : h.newestAppended c directory key = none ↔
    ∀ entry ∈ h.log directory (keySegment c key), entry.tombstone = false →
      entry.state.key ≠ key := by
  simp only [newestAppended, newestIn_eq_none, mem_map, mem_filter]
  grind

theorem History.newestOf_congr {h' : History R} {directories : List String}
    (hsame : ∀ d ∈ directories, h'.newest c d key = h.newest c d key) :
    h'.newestOf c directories key = h.newestOf c directories key := by
  induction directories with
  | nil => rfl
  | cons d _ ih =>
    have hrest := ih fun x hx => hsame x (mem_cons_of_mem d hx)
    simp only [newestOf, findSome?_cons, hsame d mem_cons_self] at hrest ⊢
    rw [hrest]

theorem History.newestAppended_eq_none_of_newest (hnone : h.newest c directory key = none) :
    h.newestAppended c directory key = none :=
  newestAppended_eq_none.mpr fun entry hentry _ => newest_eq_none.mp hnone entry hentry

end Search

/-! ### What an event does -/

section Events

variable {c} {h : History R} {directory key : String} {entry : LogEntry R}

theorem History.log_push (d : String) (segment : Nat) :
    (h.push c directory entry).log d segment =
      if d = directory ∧ segment = keySegment c entry.state.key then h.log d segment ++ [entry]
      else h.log d segment := by
  unfold push
  by_cases hd : d = directory
  · subst hd
    by_cases hs : segment = keySegment c entry.state.key
    · subst hs; simp
    · simp [hs]
  · simp [hd]

theorem History.mem_log_push {d : String} {segment : Nat} {e : LogEntry R} :
    e ∈ (h.push c directory entry).log d segment ↔ e ∈ h.log d segment ∨
      (d = directory ∧ segment = keySegment c entry.state.key ∧ e = entry) := by
  rw [log_push]
  split <;> simp_all

theorem History.newest_push (d key : String) :
    (h.push c directory entry).newest c d key =
      if d = directory ∧ entry.state.key = key then some entry.state else h.newest c d key := by
  unfold newest
  rw [log_push]
  by_cases hd : d = directory
  · by_cases hkey : entry.state.key = key
    · subst hkey
      simp [hd, newestIn_append_singleton]
    · by_cases hs : keySegment c key = keySegment c entry.state.key
      · simp [hd, hs, hkey, newestIn_append_singleton]
      · simp [hd, hs, hkey]
  · simp [hd]

theorem History.newestAppended_push_tombstone (htomb : entry.tombstone) (d key : String) :
    (h.push c directory entry).newestAppended c d key = h.newestAppended c d key := by
  unfold newestAppended
  rw [log_push]
  split <;> simp [htomb]

theorem History.newestAppended_push_other {d : String} (hd : d ≠ directory) (key : String) :
    (h.push c directory entry).newestAppended c d key = h.newestAppended c d key := by
  unfold newestAppended
  rw [log_push, if_neg fun hc => hd hc.1]

variable (hwf : h.WF c)
include hwf

/-- A generation that no other one was resumed from can be appended to. -/
theorem History.WF.push_appended (hentry : entry.tombstone = false)
    (hunresumed : ∀ d, directory ∉ h.sources d) : (h.push c directory entry).WF c where
  chain := hwf.chain
  started := by
    intro d segment e he htomb
    rcases mem_log_push.mp he with he | ⟨-, -, rfl⟩
    · exact hwf.started d segment e he htomb
    · rw [hentry] at htomb; cases htomb
  first := by
    intro d key
    rw [log_push]
    split
    · rw [filter_append, pairwise_append]
      refine ⟨hwf.first d key, ?_, ?_⟩
      · exact (pairwise_singleton _ entry).filter _
      · intro a _ b hb
        rw [mem_singleton.mp (mem_filter.mp hb).1, hentry]
    · exact hwf.first d key
  bare := by
    intro d key e he hkey htomb source hsource
    have hne : source ≠ directory := by
      rintro rfl
      exact hunresumed d hsource
    rw [newestAppended_push_other hne]
    rcases mem_log_push.mp he with he | ⟨-, -, rfl⟩
    · exact hwf.bare d key e he hkey htomb source hsource
    · rw [hentry] at htomb; cases htomb

/-- A tombstone is written when the lineage has no record of its key. -/
theorem History.WF.push_tombstone (hnone : h.newest c directory key = none)
    (hsources : h.newestOf c (h.sources directory) key = none) :
    (h.push c directory ⟨.started key, true⟩).WF c where
  chain := hwf.chain
  started := by
    intro d segment e he htomb
    rcases mem_log_push.mp he with he | ⟨-, -, rfl⟩
    · exact hwf.started d segment e he htomb
    · rfl
  first := by
    intro d key'
    rw [log_push]
    split
    · rename_i hd
      rw [filter_append, pairwise_append]
      refine ⟨hwf.first d key', (pairwise_singleton _ _).filter _, ?_⟩
      intro a ha b hb
      -- an older record of the same key would have been found
      obtain ⟨hb, hbkey⟩ := mem_filter.mp hb
      obtain rfl := mem_singleton.mp hb
      have hkey' : key = key' := of_decide_eq_true hbkey
      obtain ⟨ha, hakey⟩ := mem_filter.mp ha
      rw [hd.1, ← hkey'] at ha
      exact absurd (by simpa [hkey'] using hakey) (newest_eq_none.mp hnone a ha)
    · exact hwf.first d key'
  bare := by
    intro d key' e he hkey htomb source hsource
    rw [newestAppended_push_tombstone rfl]
    rcases mem_log_push.mp he with he | ⟨rfl, -, rfl⟩
    · exact hwf.bare d key' e he hkey htomb source hsource
    · obtain rfl : key = key' := hkey
      exact newestAppended_eq_none_of_newest (findSome?_eq_none_iff.mp hsources source hsource)

/-- A crash only takes records away. -/
theorem History.WF.cut (lengths : String → Nat → Nat) : (h.apply c (.cut lengths)).WF c := by
  have hsub : ∀ d segment, (h.apply c (.cut lengths)).log d segment <+: h.log d segment :=
    fun d segment => LineLog.keepWithin_prefix _ _
  refine ⟨hwf.chain, ?_, ?_, ?_⟩
  · exact fun d segment e he => hwf.started d segment e ((hsub d segment).subset he)
  · exact fun d key => (hwf.first d key).sublist ((hsub d _).sublist.filter _)
  · intro d key e he hkey htomb source hsource
    have hbare := hwf.bare d key e ((hsub d _).subset he) hkey htomb source hsource
    rw [newestAppended_eq_none] at hbare ⊢
    exact fun x hx => hbare x ((hsub source _).subset hx)

/-- A new generation starts empty, on top of an existing one or of none. -/
theorem History.WF.created {fresh : String} {sources : List String}
    (hlog : ∀ segment, h.log fresh segment = []) (hfresh : ∀ d, fresh ∉ h.sources d)
    (hsources : sources = [] ∨ ∃ previous, previous ≠ fresh ∧
      sources = previous :: h.sources previous) :
    (h.apply c (.created fresh sources)).WF c where
  chain := by
    intro d
    by_cases hd : d = fresh
    · subst hd
      rcases hsources with rfl | ⟨previous, hne, rfl⟩
      · left; simp [apply]
      · right; exact ⟨previous, by simp [apply, hne]⟩
    · rcases hwf.chain d with hnil | ⟨previous, hprev⟩
      · left; simpa [apply, hd] using hnil
      · right
        have hne : previous ≠ fresh := by
          rintro rfl
          exact hfresh d (by simp [hprev])
        exact ⟨previous, by simp [apply, hd, hne, hprev]⟩
  started := hwf.started
  first := hwf.first
  bare := by
    intro d key e he hkey htomb source hsource
    have hd : d ≠ fresh := by
      rintro rfl
      have he' : e ∈ h.log d (keySegment c key) := he
      simp [hlog] at he'
    have hsource' : source ∈ h.sources d := by simpa [apply, hd] using hsource
    exact hwf.bare d key e he hkey htomb source hsource'

/-- The sources behind a source are its own sources. -/
theorem History.WF.sources_split :
    ∀ (n : Nat) (d : String), (h.sources d).length = n → directory ∈ h.sources d →
      ∃ before, directory ∉ before ∧ h.sources d = before ++ directory :: h.sources directory := by
  intro n
  induction n with
  | zero =>
    intro d hlen hmem
    rw [length_eq_zero_iff.mp hlen] at hmem
    simp at hmem
  | succ n ih =>
    intro d hlen hmem
    rcases hwf.chain d with hnil | ⟨previous, hprev⟩
    · simp [hnil] at hlen
    by_cases hp : previous = directory
    · exact ⟨[], by simp, by rw [hprev, hp]; rfl⟩
    rw [hprev, mem_cons] at hmem
    have hmem' : directory ∈ h.sources previous := by
      rcases hmem with hmem | hmem
      · exact absurd hmem.symm hp
      · exact hmem
    obtain ⟨before, hbefore, hsplit⟩ := ih previous (by simpa [hprev] using hlen) hmem'
    refine ⟨previous :: before, ?_, by rw [hprev, hsplit]; rfl⟩
    rw [mem_cons, not_or]
    exact ⟨fun e => hp e.symm, hbefore⟩

end Events

end Journal

end CodexPlus
