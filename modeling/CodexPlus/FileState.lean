/-
CodexPlus/FileState.lean

The state of the files a session has read or edited:
core/src/tools/handlers/file_state.rs, and the part of file_read.rs that keeps it.

The cache holds the content shown by the last Read of a file, with the range and
the modification time it was read at; an Edit is allowed while that content is
current.  Least recently used entries are evicted, by number and by size.
-/
import CodexPlus.FileReadAgree
import Mathlib

namespace CodexPlus

open List

namespace FileRead

/-! ### The cache -/

structure FileStateKey (PathUri : Type) where
  environmentId : String
  path : PathUri
  deriving DecidableEq, Repr

inductive FileStateSource where
  | read (offset : ℕ) (limit : Option ℕ)
  | edit
  deriving DecidableEq, Repr

structure FileState where
  content : Text
  modifiedAtMs : ℤ
  source : FileStateSource
  deriving DecidableEq, Repr

inductive EditStateError where
  | notRead
  | modified
  deriving DecidableEq, Repr

def maxFileStateEntries : ℕ := 100
def maxFileStateBytes : ℕ := 25 * 1024 * 1024

/-- What an entry counts for: `content.len().max(1)`. -/
def FileState.size (state : FileState) : ℕ := max (byteLen state.content) 1

/-- The entries of the map, and their keys from the least to the most recently used. -/
structure FileStateCache (PathUri : Type) where
  entries : List (FileStateKey PathUri × FileState)
  lru : List (FileStateKey PathUri)
  contentBytes : ℕ
  historyVersion : Option ℕ

/-- `content.split('\n').skip(..).take(..).join("\n")` -/
def selectReadContent (content : Text) (offset : ℕ) (limit : Option ℕ) : Text :=
  joinLines (takeLimit limit ((content.splitOn '\n').drop (offset - 1)))

namespace FileStateCache

variable {PathUri : Type} [DecidableEq PathUri]

/-- `FileStateCache::default` -/
def empty : FileStateCache PathUri := ⟨[], [], 0, none⟩

def lookup (c : FileStateCache PathUri) (key : FileStateKey PathUri) : Option FileState :=
  (c.entries.find? (·.1 = key)).map (·.2)

/-- `entries.remove`, with the bytes it frees. -/
def removeEntry (c : FileStateCache PathUri) (key : FileStateKey PathUri) : FileStateCache PathUri :=
  match c.lookup key with
  | some state =>
    { c with
      entries := c.entries.filter (·.1 ≠ key)
      contentBytes := c.contentBytes - state.size }
  | none => c

def remove (c : FileStateCache PathUri) (key : FileStateKey PathUri) : FileStateCache PathUri :=
  let c := c.removeEntry key
  { c with lru := c.lru.filter (· ≠ key) }

/-- No room for an entry of this size. -/
def isFull (c : FileStateCache PathUri) (stateSize : ℕ) : Bool :=
  c.entries.length ≥ maxFileStateEntries || c.contentBytes + stateSize > maxFileStateBytes

/-- Drops the oldest entries until there is room; `queue` is what is left of the keys. -/
def evict (c : FileStateCache PathUri) (stateSize : ℕ) :
    List (FileStateKey PathUri) → FileStateCache PathUri
  | [] => { c with lru := [] }
  | oldest :: queue =>
    if c.isFull stateSize then (c.removeEntry oldest).evict stateSize queue
    else { c with lru := oldest :: queue }

def insert (c : FileStateCache PathUri) (key : FileStateKey PathUri) (state : FileState) :
    FileStateCache PathUri :=
  let c := c.remove key
  if state.size > maxFileStateBytes then c
  else
    let c := c.evict state.size c.lru
    { c with
      entries := c.entries ++ [(key, state)]
      lru := c.lru ++ [key]
      contentBytes := c.contentBytes + state.size }

/-- The state of a file, which becomes the most recently used one. -/
def get (c : FileStateCache PathUri) (key : FileStateKey PathUri) :
    Option FileState × FileStateCache PathUri :=
  match c.lookup key with
  | some state => (some state, { c with lru := c.lru.filter (· ≠ key) ++ [key] })
  | none => (none, c)

/-- The cache of a rewritten history starts empty. -/
def prepareHistoryVersion (c : FileStateCache PathUri) (historyVersion : ℕ) : FileStateCache PathUri :=
  if c.historyVersion = some historyVersion then c else ⟨[], [], 0, some historyVersion⟩

def recordRead (c : FileStateCache PathUri) (key : FileStateKey PathUri) (content : Text)
    (modifiedAtMs : ℤ) (offset : ℕ) (limit : Option ℕ) : FileStateCache PathUri :=
  c.insert key ⟨content, modifiedAtMs, .read offset limit⟩

def recordEdit (c : FileStateCache PathUri) (key : FileStateKey PathUri) (content : Text)
    (modifiedAtMs : ℤ) : FileStateCache PathUri :=
  c.insert key ⟨content, modifiedAtMs, .edit⟩

def readIsUnchanged (c : FileStateCache PathUri) (key : FileStateKey PathUri) (modifiedAtMs : ℤ)
    (offset : ℕ) (limit : Option ℕ) (currentContent : Text) : Bool × FileStateCache PathUri :=
  let (state, c) := c.get key
  (state.any fun state => state.modifiedAtMs = modifiedAtMs &&
    state.source = .read offset limit && state.content = currentContent, c)

def validateEdit (c : FileStateCache PathUri) (key : FileStateKey PathUri)
    (currentModifiedAtMs : ℤ) (currentContent : Text) :
    Except EditStateError Unit × FileStateCache PathUri :=
  match c.get key with
  | (none, c) => (.error .notRead, c)
  | (some state, c) =>
    let isUnchanged : Bool :=
      match state.source with
      | .read offset limit => currentModifiedAtMs = state.modifiedAtMs &&
          selectReadContent currentContent offset limit = state.content
      | .edit => currentContent = state.content
    if isUnchanged then (.ok (), c) else (.error .modified, c)

/-! ### What the cache keeps -/

/-- The entries have different keys, which are those of the queue, and their bytes are counted. -/
structure Counted (c : FileStateCache PathUri) (queue : List (FileStateKey PathUri)) : Prop where
  keys : (c.entries.map (·.1)).Nodup
  queue : queue.Perm (c.entries.map (·.1))
  bytes : c.contentBytes = (c.entries.map (·.2.size)).sum

/-- A counted cache that is not too large. -/
structure Valid (c : FileStateCache PathUri) : Prop extends Counted c c.lru where
  entries_le : c.entries.length ≤ maxFileStateEntries
  bytes_le : c.contentBytes ≤ maxFileStateBytes

variable {c : FileStateCache PathUri} {key : FileStateKey PathUri} {state : FileState}

theorem lookup_eq_none : c.lookup key = none ↔ key ∉ c.entries.map (·.1) := by
  rw [lookup, Option.map_eq_none_iff, find?_eq_none, mem_map]
  refine ⟨fun h ⟨entry, hentry, heq⟩ => h entry hentry (by simpa using heq), fun h entry hentry heq => ?_⟩
  exact h ⟨entry, hentry, by simpa using heq⟩

theorem mem_of_lookup (h : c.lookup key = some state) : (key, state) ∈ c.entries := by
  obtain ⟨⟨key', state'⟩, hfind, rfl⟩ := Option.map_eq_some_iff.mp h
  obtain rfl : key' = key := by simpa using find?_some hfind
  exact mem_of_find?_eq_some hfind

theorem removeEntry_entries : (c.removeEntry key).entries = c.entries.filter (·.1 ≠ key) := by
  unfold removeEntry
  split
  · rfl
  · next hnone =>
    refine (filter_eq_self.mpr fun entry hentry => ?_).symm
    have hne : entry.1 ≠ key := fun heq =>
      lookup_eq_none.mp hnone (heq ▸ mem_map_of_mem hentry)
    simpa using hne

theorem removeEntry_lru (c : FileStateCache PathUri) (key : FileStateKey PathUri) :
    (c.removeEntry key).lru = c.lru := by
  unfold removeEntry
  split <;> rfl

theorem map_filter_keys (entries : List (FileStateKey PathUri × FileState)) :
    (entries.filter (·.1 ≠ key)).map (·.1) = (entries.map (·.1)).filter (· ≠ key) := by
  rw [filter_map]
  rfl

/-- The bytes of the other entries. -/
theorem sum_filter_ne {entries : List (FileStateKey PathUri × FileState)}
    (hkeys : (entries.map (·.1)).Nodup) (h : (key, state) ∈ entries) :
    ((entries.filter (·.1 ≠ key)).map (·.2.size)).sum + state.size =
      (entries.map (·.2.size)).sum := by
  induction entries with
  | nil => cases h
  | cons entry entries ih =>
    rw [map_cons, nodup_cons] at hkeys
    rw [map_cons, sum_cons]
    rcases mem_cons.mp h with rfl | hrest
    · -- no other entry has the key
      have hrest : entries.filter (·.1 ≠ key) = entries := filter_eq_self.mpr fun other hother => by
        have hne : other.1 ≠ key := fun heq => hkeys.1 (mem_map.mpr ⟨other, hother, heq⟩)
        simpa using hne
      rw [filter_cons_of_neg (by simp), hrest, Nat.add_comm]
    · have hne : entry.1 ≠ key := fun heq => hkeys.1 (mem_map.mpr ⟨_, hrest, heq.symm⟩)
      rw [filter_cons_of_pos (by simpa using hne), map_cons, sum_cons, Nat.add_assoc,
        ih hkeys.2 hrest]

variable {queue : List (FileStateKey PathUri)}

/-- An entry leaves the map and the queue. -/
theorem Counted.removeEntry (h : c.Counted queue) (key : FileStateKey PathUri) :
    (c.removeEntry key).Counted (queue.filter (· ≠ key)) := by
  refine ⟨?_, ?_, ?_⟩
  · rw [removeEntry_entries, map_filter_keys]
    exact h.keys.filter _
  · rw [removeEntry_entries, map_filter_keys]
    exact h.queue.filter _
  · rcases hlookup : c.lookup key with - | state
    · have hsame : c.removeEntry key = c := by simp [FileStateCache.removeEntry, hlookup]
      rw [hsame]
      exact h.bytes
    · have hbytes : (c.removeEntry key).contentBytes = c.contentBytes - state.size := by
        simp [FileStateCache.removeEntry, hlookup]
      have hsum := sum_filter_ne h.keys (mem_of_lookup hlookup)
      rw [hbytes, removeEntry_entries, h.bytes, ← hsum, Nat.add_sub_cancel]

theorem removeEntry_length_le : (c.removeEntry key).entries.length ≤ c.entries.length := by
  rw [removeEntry_entries]
  exact length_filter_le _ _

theorem removeEntry_bytes_le : (c.removeEntry key).contentBytes ≤ c.contentBytes := by
  unfold removeEntry
  split
  · exact Nat.sub_le _ _
  · exact Nat.le_refl _

theorem Valid.remove (h : c.Valid) (key : FileStateKey PathUri) : (c.remove key).Valid where
  toCounted := by
    have hcounted := h.toCounted.removeEntry key
    have hlru : (c.remove key).lru = c.lru.filter (· ≠ key) := by
      rw [← c.removeEntry_lru key]
      rfl
    exact ⟨hcounted.keys, hlru ▸ hcounted.queue, hcounted.bytes⟩
  entries_le := Nat.le_trans removeEntry_length_le h.entries_le
  bytes_le := Nat.le_trans removeEntry_bytes_le h.bytes_le

/-- **Eviction.**  It makes room for an entry that fits the cache at all. -/
theorem Counted.evict (h : c.Counted queue) {stateSize : ℕ}
    (hsize : stateSize ≤ maxFileStateBytes) :
    (c.evict stateSize queue).Counted (c.evict stateSize queue).lru ∧
      (c.evict stateSize queue).isFull stateSize = false := by
  induction queue generalizing c with
  | nil =>
    have hnil : c.entries = [] := by simpa using h.queue.symm.eq_nil
    refine ⟨⟨h.keys, h.queue, h.bytes⟩, ?_⟩
    have hbytes : c.contentBytes = 0 := by rw [h.bytes, hnil]; rfl
    simp [evict, isFull, hnil, hbytes, maxFileStateEntries, hsize]
  | cons oldest queue ih =>
    rw [evict]
    split
    · have hnodup : oldest ∉ queue := (nodup_cons.mp (h.queue.nodup_iff.mpr h.keys)).1
      have hqueue : (oldest :: queue).filter (· ≠ oldest) = queue := by
        rw [filter_cons_of_neg (by simp), filter_eq_self]
        intro other hother
        simpa using fun heq : other = oldest => hnodup (heq ▸ hother)
      have hnext := h.removeEntry oldest
      rw [hqueue] at hnext
      exact ih hnext
    · next hroom => exact ⟨⟨h.keys, h.queue, h.bytes⟩, by simpa [isFull] using hroom⟩

theorem evict_entries_subset (stateSize : ℕ) (queue : List (FileStateKey PathUri)) :
    (c.evict stateSize queue).entries ⊆ c.entries := by
  induction queue generalizing c with
  | nil => exact fun _ h => h
  | cons _ _ ih =>
    rw [evict]
    split
    · refine fun entry hentry => ?_
      have hmem := ih hentry
      rw [removeEntry_entries] at hmem
      exact (mem_filter.mp hmem).1
    · exact fun _ h => h

theorem notMem_remove (c : FileStateCache PathUri) (key : FileStateKey PathUri) :
    key ∉ (c.remove key).entries.map (·.1) := by
  intro hmem
  obtain ⟨entry, hentry, rfl⟩ := mem_map.mp hmem
  have hentry' : entry ∈ (c.removeEntry entry.1).entries := hentry
  rw [removeEntry_entries] at hentry'
  simpa using (mem_filter.mp hentry').2

theorem notMem_evict_remove (c : FileStateCache PathUri) (key : FileStateKey PathUri)
    (stateSize : ℕ) (queue : List (FileStateKey PathUri)) :
    key ∉ ((c.remove key).evict stateSize queue).entries.map (·.1) := fun hmem => by
  obtain ⟨entry, hentry, rfl⟩ := mem_map.mp hmem
  exact c.notMem_remove _ (mem_map_of_mem (evict_entries_subset stateSize queue hentry))

theorem Valid.insert (h : c.Valid) (key : FileStateKey PathUri) (state : FileState) :
    (c.insert key state).Valid := by
  have hremove := h.remove key
  unfold FileStateCache.insert
  split
  · exact hremove
  · next hsize =>
    obtain ⟨hcounted, hroom⟩ := hremove.toCounted.evict (Nat.not_lt.mp hsize)
    have hnew := c.notMem_evict_remove key state.size (c.remove key).lru
    simp only [isFull, ge_iff_le, Bool.or_eq_false_iff, decide_eq_false_iff_not, Nat.not_le,
      Nat.not_lt] at hroom
    refine ⟨⟨?_, ?_, ?_⟩, ?_, hroom.2⟩
    · rw [map_append]
      exact List.Nodup.append hcounted.keys (nodup_singleton _) (disjoint_singleton.mpr hnew)
    · rw [map_append]
      exact hcounted.queue.append_right _
    · rw [map_append, sum_append, ← hcounted.bytes]
      rfl
    · rw [length_append]
      exact hroom.1

theorem Valid.get (h : c.Valid) (key : FileStateKey PathUri) : (c.get key).2.Valid := by
  unfold FileStateCache.get
  split
  · next state hlookup =>
    have hmem : key ∈ c.lru := h.queue.mem_iff.mpr (mem_map_of_mem (mem_of_lookup hlookup))
    have hnodup : c.lru.Nodup := h.queue.nodup_iff.mpr h.keys
    have hperm : (c.lru.filter (· ≠ key) ++ [key]).Perm c.lru := by
      have herase : c.lru.filter (· ≠ key) = c.lru.erase key := by
        rw [hnodup.erase_eq_filter]
        exact filter_congr fun other _ => by rw [Bool.eq_iff_iff]; simp
      rw [herase]
      exact perm_append_comm.trans (perm_cons_erase hmem).symm
    exact ⟨⟨h.keys, hperm.trans h.queue, h.bytes⟩, h.entries_le, h.bytes_le⟩
  · exact h

omit [DecidableEq PathUri] in
theorem empty_valid (historyVersion : Option ℕ) :
    (⟨[], [], 0, historyVersion⟩ : FileStateCache PathUri).Valid :=
  ⟨⟨nodup_nil, List.Perm.refl _, rfl⟩, Nat.zero_le _, Nat.zero_le _⟩

omit [DecidableEq PathUri] in
theorem Valid.prepareHistoryVersion (h : c.Valid) (historyVersion : ℕ) :
    (c.prepareHistoryVersion historyVersion).Valid := by
  unfold FileStateCache.prepareHistoryVersion
  split
  · exact h
  · exact empty_valid _

/-- What the handlers do to the cache of a session. -/
inductive CacheStep : FileStateCache PathUri → FileStateCache PathUri → Prop
  | insert {c : FileStateCache PathUri} (key : FileStateKey PathUri) (state : FileState) :
      CacheStep c (c.insert key state)
  | remove {c : FileStateCache PathUri} (key : FileStateKey PathUri) : CacheStep c (c.remove key)
  | get {c : FileStateCache PathUri} (key : FileStateKey PathUri) : CacheStep c (c.get key).2
  | prepare {c : FileStateCache PathUri} (historyVersion : ℕ) :
      CacheStep c (c.prepareHistoryVersion historyVersion)

/-- **The cache of a session.**  Whatever the handlers do, the queue has the keys of the entries,
and the entries stay within the limits. -/
theorem valid_of_reachable (h : Relation.ReflTransGen CacheStep empty c) : c.Valid := by
  induction h with
  | refl => exact empty_valid _
  | tail _ hstep ih =>
    cases hstep with
    | insert key state => exact ih.insert key state
    | remove key => exact ih.remove key
    | get key => exact ih.get key
    | prepare historyVersion => exact ih.prepareHistoryVersion historyVersion

/-! ### The entry of a file -/

variable (c) (key : FileStateKey PathUri)

@[simp]
theorem get_fst : (c.get key).1 = c.lookup key := by
  unfold get
  split <;> simp_all

@[simp]
theorem lookup_get (key other : FileStateKey PathUri) :
    (c.get key).2.lookup other = c.lookup other := by
  unfold get
  split <;> rfl

theorem lookup_remove : (c.remove key).lookup key = none := lookup_eq_none.mpr (c.notMem_remove key)

theorem lookup_insert (state : FileState) :
    (c.insert key state).lookup key =
      if state.size > maxFileStateBytes then none else some state := by
  unfold insert
  split
  · exact c.lookup_remove key
  · have hnone : (((c.remove key).evict state.size (c.remove key).lru).entries.find? (·.1 = key)) =
        none := Option.map_eq_none_iff.mp (lookup_eq_none.mpr (c.notMem_evict_remove key _ _))
    rw [lookup, find?_append, hnone]
    simp

variable {current : Text} {modifiedAtMs : ℤ}

/-! ### Whole runs -/

inductive Op (PathUri : Type) where
  | insert (key : FileStateKey PathUri) (state : FileState)
  | lookup (key : FileStateKey PathUri)
  | remove (key : FileStateKey PathUri)
  deriving DecidableEq, Repr

def Op.apply : Op PathUri → FileStateCache PathUri
  | .insert key state => c.insert key state
  | .lookup key => (c.get key).2
  | .remove key => c.remove key

def run (ops : List (Op PathUri)) : FileStateCache PathUri := ops.foldl Op.apply empty

/-- The key that an operation uses. -/
def Op.used : Op PathUri → Option (FileStateKey PathUri)
  | .insert key _ => some key
  | .lookup key => some key
  | .remove _ => none

/-- The keys in the order of their last use. -/
def recency (uses : List (FileStateKey PathUri)) : List (FileStateKey PathUri) :=
  uses.foldl (fun order key => order.filter (· ≠ key) ++ [key]) []

/-- What the loop drops is the front of the queue, and without the last of it there is no room. -/
theorem evict_eq (stateSize : ℕ) (queue : List (FileStateKey PathUri)) :
    ∃ evicted kept, queue = evicted ++ kept ∧
      c.evict stateSize queue = { evicted.foldl removeEntry c with lru := kept } ∧
      ∀ early, early <+: evicted → early ≠ evicted →
        (early.foldl removeEntry c).isFull stateSize = true := by
  induction queue generalizing c with
  | nil => exact ⟨[], [], rfl, rfl, fun early h hne => absurd (prefix_nil.mp h) hne⟩
  | cons oldest queue ih =>
    rw [evict]
    split
    · next hfull =>
      obtain ⟨evicted, kept, rfl, heq, hneeded⟩ := ih (c.removeEntry oldest)
      refine ⟨oldest :: evicted, kept, rfl, heq, fun early hearly hne => ?_⟩
      rcases early with - | ⟨first, early⟩
      · exact hfull
      · obtain ⟨rfl, hrest⟩ := cons_prefix_cons.mp hearly
        exact hneeded early hrest fun heq => hne (congrArg (first :: ·) heq)
    · exact ⟨[], oldest :: queue, rfl, rfl, fun early h hne => absurd (prefix_nil.mp h) hne⟩

theorem remove_lru : (c.remove key).lru = c.lru.filter (· ≠ key) := by
  rw [← c.removeEntry_lru key]
  rfl

theorem insert_evicts (hsize : state.size ≤ maxFileStateBytes) :
    ∃ evicted kept, c.lru.filter (· ≠ key) = evicted ++ kept ∧
      (c.insert key state).lru = kept ++ [key] ∧
      (c.insert key state).entries
        = (evicted.foldl removeEntry (c.remove key)).entries ++ [(key, state)] ∧
      ∀ early, early <+: evicted → early ≠ evicted →
        (early.foldl removeEntry (c.remove key)).isFull state.size = true := by
  obtain ⟨evicted, kept, hqueue, heq, hneeded⟩ :=
    evict_eq (c.remove key) state.size (c.remove key).lru
  refine ⟨evicted, kept, by rw [← remove_lru, hqueue], ?_, ?_, hneeded⟩ <;>
    · rw [insert, if_neg (Nat.not_lt.mpr hsize), heq]

variable {c}

/-- **The order.**  The queue keeps the order of the last uses. -/
theorem Valid.apply_lru (h : c.Valid) {uses : List (FileStateKey PathUri)}
    (horder : c.lru <+ recency uses) (op : Op PathUri) :
    (op.apply c).lru <+ recency (uses ++ op.used.toList) := by
  have hused : ∀ key, recency (uses ++ [key]) = (recency uses).filter (· ≠ key) ++ [key] := by
    intro key
    rw [recency, foldl_append]
    rfl
  have hrest : ∀ key, c.lru.filter (· ≠ key) <+ (recency uses).filter (· ≠ key) := fun key =>
    horder.filter _
  cases op with
  | insert key state =>
    show (c.insert key state).lru <+ recency (uses ++ [key])
    rw [hused]
    by_cases hsize : state.size ≤ maxFileStateBytes
    · obtain ⟨evicted, kept, hqueue, hlru, -⟩ := c.insert_evicts key hsize
      rw [hlru]
      refine Sublist.append_right ((sublist_append_right evicted kept).trans ?_) [key]
      rw [← hqueue]
      exact hrest key
    · rw [FileStateCache.insert, if_pos (Nat.not_le.mp hsize), remove_lru]
      exact (hrest key).trans (sublist_append_left _ _)
  | lookup key =>
    show (c.get key).2.lru <+ recency (uses ++ [key])
    rw [hused, FileStateCache.get]
    split
    · exact (hrest key).append_right [key]
    · next hnone =>
      -- a key that is not cached is not in the queue
      have hnot : key ∉ c.lru := fun hmem => lookup_eq_none.mp hnone (h.queue.mem_iff.mp hmem)
      have hself : c.lru.filter (· ≠ key) = c.lru := filter_eq_self.mpr fun other hother => by
        simpa using fun heq : other = key => hnot (heq ▸ hother)
      exact hself ▸ (hrest key).trans (sublist_append_left _ _)
  | remove key =>
    show (c.remove key).lru <+ recency (uses ++ [])
    rw [append_nil, remove_lru]
    exact filter_sublist.trans horder

theorem run_reachable (ops : List (Op PathUri)) :
    Relation.ReflTransGen CacheStep empty (run ops) ∧
      (run ops).lru <+ recency (ops.filterMap Op.used) := by
  induction ops using List.reverseRecOn with
  | nil => exact ⟨.refl, .slnil⟩
  | append_singleton ops op ih =>
    have hlast : (ops ++ [op]).filterMap Op.used = ops.filterMap Op.used ++ op.used.toList := by
      rw [filterMap_append]
      cases op <;> rfl
    rw [run, foldl_append, hlast]
    refine ⟨ih.1.tail ?_, (valid_of_reachable ih.1).apply_lru ih.2 op⟩
    cases op with
    | insert key state => exact .insert key state
    | lookup key => exact .get key
    | remove key => exact .remove key

/-- **The cache keeps its bounds and its order.**  After any operations the queue lists each cached
key once, in the order of the last uses, and the entries are counted and within the limits.  An
insertion drops the least recently used of the other keys, as few as make room (`evict` is a
recursion on the queue, so it ends), and the entry is there if it fits at all. -/
theorem run_keeps_bounds_and_order (ops : List (Op PathUri)) :
    (run ops).lru.Nodup ∧
    (∀ key, key ∈ (run ops).lru ↔ ((run ops).lookup key).isSome = true) ∧
    (run ops).lru <+ recency (ops.filterMap Op.used) ∧
    ((run ops).entries.map (·.1)).Nodup ∧
    (run ops).contentBytes = ((run ops).entries.map fun e => max (byteLen e.2.content) 1).sum ∧
    (run ops).entries.length ≤ 100 ∧ (run ops).contentBytes ≤ 25 * 1024 * 1024 ∧
    ∀ (key : FileStateKey PathUri) (state : FileState), state.size ≤ maxFileStateBytes →
      ((run ops).insert key state).lookup key = some state ∧
      ∃ evicted kept, (run ops).lru.filter (· ≠ key) = evicted ++ kept ∧
        ((run ops).insert key state).lru = kept ++ [key] ∧
        ((run ops).insert key state).entries
          = (evicted.foldl removeEntry ((run ops).remove key)).entries ++ [(key, state)] ∧
        ∀ early, early <+: evicted → early ≠ evicted →
          (early.foldl removeEntry ((run ops).remove key)).isFull state.size = true := by
  obtain ⟨hreach, horder⟩ := run_reachable ops
  have hvalid := valid_of_reachable hreach
  refine ⟨hvalid.queue.nodup_iff.mpr hvalid.keys, fun key => ?_, horder, hvalid.keys, hvalid.bytes,
    hvalid.entries_le, hvalid.bytes_le, fun key state hsize => ⟨?_, insert_evicts _ key hsize⟩⟩
  · rw [hvalid.queue.mem_iff, ← not_iff_not, ← lookup_eq_none, Option.not_isSome_iff_eq_none]
  · rw [lookup_insert, if_neg (Nat.not_lt.mpr hsize)]

/-- An edit is accepted if the retained state is of a Read of the current content. -/
theorem validateEdit_of_read {content : Text} {offset : ℕ}
    {limit : Option ℕ} (h : c.lookup key = some ⟨content, modifiedAtMs, .read offset limit⟩)
    (hcontent : selectReadContent current offset limit = content) :
    (c.validateEdit key modifiedAtMs current).1 = .ok () := by
  have hget : c.get key = (some ⟨content, modifiedAtMs, .read offset limit⟩, (c.get key).2) := by
    rw [← h, ← get_fst]
  unfold validateEdit
  rw [hget]
  simp [hcontent]

end FileStateCache

end FileRead

end CodexPlus
