/-
CodexPlus/OrderedCiphertext.lean

Putting relay records back in order: exec-server/src/noise_relay/ordered_ciphertext.rs.

The receiver of a Noise stream decrypts with an implicit nonce, so that records have
to reach it in the order of their numbers.  `push` hands a record on as soon as all
the records before it arrived, and keeps the others, within a window.
-/
import CodexPlus.Reorder
import Mathlib.Data.List.Nodup

namespace CodexPlus

open List

namespace NoiseRelay

def maxReorderDistance : ℕ := 64
def maxPendingBytes : ℕ := 1024 * 1024

inductive ExecServerError where
  | protocol (message : String)
  deriving DecidableEq, Repr

variable {α β : Type}

/-- The records that wait for an earlier one.  The map is the list of its entries, and a record is
whatever has a length, which `len` gives. -/
structure OrderedCiphertextFrames (α : Type) where
  nextSeq : ℕ
  pending : List (ℕ × α)
  pendingBytes : ℕ
  deriving DecidableEq, Repr

/-- `BTreeMap::remove` -/
def takeOut (seq : ℕ) : List (ℕ × α) → Option (α × List (ℕ × α))
  | [] => none
  | entry :: rest =>
    if entry.1 = seq then some (entry.2, rest)
    else (takeOut seq rest).map fun found => (found.1, entry :: found.2)

namespace OrderedCiphertextFrames

/-- `OrderedCiphertextFrames::default` -/
def start : OrderedCiphertextFrames α := ⟨0, [], 0⟩

def sequenceExhausted : ExecServerError := .protocol "Noise relay sequence number exhausted"

/-- `advance`: a sequence number is a `u32`. -/
def advance (frames : OrderedCiphertextFrames α) :
    Except ExecServerError (OrderedCiphertextFrames α) :=
  if frames.nextSeq + 1 < 2 ^ 32 then .ok { frames with nextSeq := frames.nextSeq + 1 }
  else .error sequenceExhausted

/-- The loop of `push`, which takes a record out of the map each time. -/
def release (len : α → ℕ) : ℕ → OrderedCiphertextFrames α → List α →
    Except ExecServerError (List α) × OrderedCiphertextFrames α
  | 0, frames, ready => (.ok ready, frames)
  | fuel + 1, frames, ready =>
    match takeOut frames.nextSeq frames.pending with
    | none => (.ok ready, frames)
    | some (payload, rest) =>
      let frames : OrderedCiphertextFrames α :=
        ⟨frames.nextSeq, rest, frames.pendingBytes - len payload⟩
      match frames.advance with
      | .error error => (.error error, frames)
      | .ok frames => release len fuel frames (ready ++ [payload])

def push (len : α → ℕ) (frames : OrderedCiphertextFrames α) (seq : ℕ) (payload : α) :
    Except ExecServerError (List α) × OrderedCiphertextFrames α :=
  if seq < frames.nextSeq ∨ seq ∈ frames.pending.map Prod.fst then (.ok [], frames)
  else if frames.nextSeq < seq then
    if maxReorderDistance < seq - frames.nextSeq then
      (.error (.protocol "Noise relay ciphertext exceeds reorder window"), frames)
    else if maxPendingBytes < frames.pendingBytes + len payload then
      (.error (.protocol "Noise relay pending ciphertext buffer is full"), frames)
    else
      (.ok [], ⟨frames.nextSeq, (seq, payload) :: frames.pending,
        frames.pendingBytes + len payload⟩)
  else
    match frames.advance with
    | .error error => (.error error, frames)
    | .ok frames => release len frames.pending.length frames [payload]

/-- A delivery, record by record: what it releases in all, and the state it leaves. -/
def pushAll (len : α → ℕ) (frames : OrderedCiphertextFrames α) :
    List (ℕ × α) → List α × OrderedCiphertextFrames α
  | [] => ([], frames)
  | (seq, payload) :: rest =>
    let (result, frames) := frames.push len seq payload
    let (released, frames) := pushAll len frames rest
    (result.toOption.getD [] ++ released, frames)

end OrderedCiphertextFrames

variable {entries : List (ℕ × α)} {seq : ℕ}

theorem takeOut_eq_none : takeOut seq entries = none ↔ seq ∉ entries.map Prod.fst := by
  induction entries with
  | nil => simp [takeOut]
  | cons entry _ ih =>
    rw [takeOut]
    by_cases h : entry.1 = seq
    · simp [h]
    · rw [if_neg h, Option.map_eq_none_iff, ih, map_cons, mem_cons, not_or]
      exact ⟨fun hrest => ⟨fun heq => h heq.symm, hrest⟩, fun hrest => hrest.2⟩

variable {rest : List (ℕ × α)} {payload : α}

theorem takeOut_perm
    (h : takeOut seq entries = some (payload, rest)) : entries.Perm ((seq, payload) :: rest) := by
  induction entries generalizing rest with
  | nil => cases h
  | cons entry _ ih =>
    rw [takeOut] at h
    by_cases hentry : entry.1 = seq
    · rw [if_pos hentry] at h
      cases h
      rw [← hentry]
    · rw [if_neg hentry] at h
      obtain ⟨⟨found, left⟩, hfound, heq⟩ := Option.map_eq_some_iff.mp h
      cases heq
      exact ((ih hfound).cons entry).trans (List.Perm.swap _ _ _)

namespace OrderedCiphertextFrames

variable {len : α → ℕ} {frames frames' : OrderedCiphertextFrames α}

/-- The numbers of the kept records. -/
def keys (frames : OrderedCiphertextFrames α) : List ℕ := frames.pending.map Prod.fst

/-- The bytes of a list of records. -/
def size (len : α → ℕ) (entries : List (ℕ × α)) : ℕ := (entries.map (len ∘ Prod.snd)).sum

/-- **The counter is right**, and every number is kept once. -/
structure Counted (len : α → ℕ) (frames : OrderedCiphertextFrames α) : Prop where
  bytes : frames.pendingBytes = size len frames.pending
  nodup : frames.keys.Nodup

/-- What the records that were released together are: a run of numbers, from the next one. -/
structure Run (len : α → ℕ) (frames : OrderedCiphertextFrames α) (taken : List (ℕ × α))
    (frames' : OrderedCiphertextFrames α) : Prop where
  perm : frames.pending.Perm (taken ++ frames'.pending)
  numbers : taken.map Prod.fst = List.range' frames.nextSeq taken.length
  counted : Counted len frames'

theorem Counted.start : Counted len (start : OrderedCiphertextFrames α) := ⟨rfl, nodup_nil⟩

theorem size_perm {entries' : List (ℕ × α)} (h : entries.Perm entries') :
    size len entries = size len entries' := (h.map _).sum_eq

/-- Taking a record out keeps the counter right. -/
theorem Counted.takeOut (h : Counted len frames)
    (hperm : frames.pending.Perm ((seq, payload) :: rest)) (next : ℕ) :
    Counted len ⟨next, rest, frames.pendingBytes - len payload⟩ := by
  refine ⟨?_, ?_⟩
  · rw [h.bytes, size_perm hperm]
    simp [size]
  · have hkeys : frames.keys.Perm (seq :: rest.map Prod.fst) := hperm.map Prod.fst
    exact (nodup_cons.mp (hkeys.nodup_iff.mp h.nodup)).2

theorem Run.nil (h : Counted len frames) : Run len frames [] frames := ⟨.refl _, rfl, h⟩

theorem Run.cons {taken : List (ℕ × α)} {bytes : ℕ}
    (hperm : frames.pending.Perm ((frames.nextSeq, payload) :: rest))
    (h : Run len ⟨frames.nextSeq + 1, rest, bytes⟩ taken frames') :
    Run len frames ((frames.nextSeq, payload) :: taken) frames' := by
  refine ⟨hperm.trans (h.perm.cons _), ?_, h.counted⟩
  rw [map_cons, h.numbers, length_cons, List.range'_succ]

section Release

variable {fuel : ℕ} {ready : List α} {payload : α} {rest : List (ℕ × α)}

theorem release_of_none (h : NoiseRelay.takeOut frames.nextSeq frames.pending = none) :
    release len (fuel + 1) frames ready = (.ok ready, frames) := by
  simp [release, h]

variable (h : NoiseRelay.takeOut frames.nextSeq frames.pending = some (payload, rest))
include h

theorem release_of_some (hnext : frames.nextSeq + 1 < 2 ^ 32) :
    release len (fuel + 1) frames ready =
      release len fuel ⟨frames.nextSeq + 1, rest, frames.pendingBytes - len payload⟩
        (ready ++ [payload]) := by
  simp only [release, h, advance, if_pos hnext]

theorem release_of_last (hnext : ¬ frames.nextSeq + 1 < 2 ^ 32) :
    release len (fuel + 1) frames ready =
      (.error sequenceExhausted, ⟨frames.nextSeq, rest, frames.pendingBytes - len payload⟩) := by
  simp only [release, h, advance, if_neg hnext]

end Release

/-- What the loop of `push` does: it takes out a run of records and stops at a gap, unless the
numbers run out. -/
theorem release_spec (fuel : ℕ) (h : Counted len frames) (hfuel : frames.pending.length ≤ fuel)
    (ready : List α) :
    (∃ taken frames', release len fuel frames ready = (.ok (ready ++ taken.map Prod.snd), frames') ∧
        Run len frames taken frames' ∧ frames'.nextSeq = frames.nextSeq + taken.length ∧
        frames'.nextSeq ∉ frames'.keys) ∨
      (∃ taken error frames', release len fuel frames ready = (.error error, frames') ∧
        Run len frames taken frames' ∧ frames'.nextSeq + 1 = frames.nextSeq + taken.length ∧
        2 ^ 32 ≤ frames'.nextSeq + 1) := by
  induction fuel generalizing frames ready with
  | zero =>
    -- without fuel there is nothing left to take
    have hnil : frames.pending = [] := eq_nil_of_length_eq_zero (by omega)
    refine .inl ⟨[], frames, ?_, .nil h, rfl, ?_⟩
    · rw [release, map_nil, append_nil]
    · rw [keys, hnil]
      exact not_mem_nil
  | succ fuel ih =>
    rcases htake : takeOut frames.nextSeq frames.pending with - | ⟨payload, rest⟩
    · -- a gap
      refine .inl ⟨[], frames, ?_, .nil h, rfl, takeOut_eq_none.mp htake⟩
      rw [release_of_none htake, map_nil, append_nil]
    have hperm := takeOut_perm htake
    by_cases hnext : frames.nextSeq + 1 < 2 ^ 32
    · have hrest : rest.length ≤ fuel := by
        have hlength := hperm.length_eq
        rw [length_cons] at hlength
        omega
      rw [release_of_some htake hnext]
      rcases ih (h.takeOut hperm _) hrest (ready ++ [payload]) with
        ⟨taken, frames', heq, hrun, hseq, hgap⟩ | ⟨taken, error, frames', heq, hrun, hseq, hmax⟩
      · refine .inl ⟨(frames.nextSeq, payload) :: taken, frames', ?_, hrun.cons hperm, ?_, hgap⟩
        · rw [heq, append_assoc]
          rfl
        · rw [hseq]
          exact Nat.succ_add_eq_add_succ _ _
      · refine .inr ⟨(frames.nextSeq, payload) :: taken, error, frames', heq, hrun.cons hperm,
          ?_, hmax⟩
        rw [hseq]
        exact Nat.succ_add_eq_add_succ _ _
    · -- the number of the record that was taken was the last one
      exact .inr ⟨[(frames.nextSeq, payload)], sequenceExhausted,
        ⟨frames.nextSeq, rest, frames.pendingBytes - len payload⟩, release_of_last htake hnext,
        ⟨hperm, rfl, h.takeOut hperm _⟩, rfl, Nat.le_of_not_lt hnext⟩

/-! ### One record -/

/-- What a delivered record can do. -/
inductive PushStep (len : α → ℕ) (frames : OrderedCiphertextFrames α) (seq : ℕ) (payload : α) :
    Except ExecServerError (List α) → OrderedCiphertextFrames α → Prop
  | duplicate (h : seq < frames.nextSeq ∨ seq ∈ frames.keys) :
      PushStep len frames seq payload (.ok []) frames
  | tooFar (error : ExecServerError) (h : frames.nextSeq + maxReorderDistance < seq) :
      PushStep len frames seq payload (.error error) frames
  | full (error : ExecServerError) (hseq : frames.nextSeq < seq) (hnew : seq ∉ frames.keys)
      (h : maxPendingBytes < frames.pendingBytes + len payload) :
      PushStep len frames seq payload (.error error) frames
  | kept (hseq : frames.nextSeq < seq) (hnew : seq ∉ frames.keys) :
      PushStep len frames seq payload (.ok [])
        ⟨frames.nextSeq, (seq, payload) :: frames.pending, frames.pendingBytes + len payload⟩
  | released (taken : List (ℕ × α)) (frames' : OrderedCiphertextFrames α)
      (hseq : seq = frames.nextSeq) (hroom : frames.nextSeq + 1 < 2 ^ 32)
      (run : Run len { frames with nextSeq := frames.nextSeq + 1 } taken frames')
      (hnext : frames'.nextSeq = frames.nextSeq + 1 + taken.length)
      (hgap : frames'.nextSeq ∉ frames'.keys) :
      PushStep len frames seq payload (.ok (payload :: taken.map Prod.snd)) frames'
  | exhausted (error : ExecServerError) (taken : List (ℕ × α))
      (frames' : OrderedCiphertextFrames α) (hseq : seq = frames.nextSeq)
      (run : Run len { frames with nextSeq := frames.nextSeq + 1 } taken frames')
      (hnext : frames'.nextSeq = frames.nextSeq + taken.length)
      (hmax : 2 ^ 32 ≤ frames'.nextSeq + 1) :
      PushStep len frames seq payload (.error error) frames'

theorem push_step (h : Counted len frames) (seq : ℕ) (payload : α) :
    PushStep len frames seq payload (frames.push len seq payload).1
      (frames.push len seq payload).2 := by
  unfold push
  by_cases hdup : seq < frames.nextSeq ∨ seq ∈ frames.pending.map Prod.fst
  · rw [if_pos hdup]
    exact .duplicate hdup
  rw [if_neg hdup]
  obtain ⟨hge, hnew⟩ := not_or.mp hdup
  by_cases hlt : frames.nextSeq < seq
  · rw [if_pos hlt]
    by_cases hfar : maxReorderDistance < seq - frames.nextSeq
    · rw [if_pos hfar]
      exact .tooFar _ (by omega)
    · rw [if_neg hfar]
      by_cases hfull : maxPendingBytes < frames.pendingBytes + len payload
      · rw [if_pos hfull]
        exact .full _ hlt hnew hfull
      · rw [if_neg hfull]
        exact .kept hlt hnew
  · have hseq : seq = frames.nextSeq := by omega
    rw [if_neg hlt]
    by_cases hnext : frames.nextSeq + 1 < 2 ^ 32
    · have hadvance : frames.advance = .ok { frames with nextSeq := frames.nextSeq + 1 } :=
        if_pos hnext
      have hcounted : Counted len { frames with nextSeq := frames.nextSeq + 1 } :=
        ⟨h.bytes, h.nodup⟩
      rw [hadvance]
      rcases release_spec _ hcounted le_rfl [payload] with
        ⟨taken, frames', heq, hrun, hseq', hgap⟩ | ⟨taken, error, frames', heq, hrun, hseq', hmax⟩
      · show PushStep len frames seq payload (release len _ _ _).1 (release len _ _ _).2
        rw [heq]
        exact .released taken frames' hseq hnext hrun hseq' hgap
      · show PushStep len frames seq payload (release len _ _ _).1 (release len _ _ _).2
        rw [heq]
        refine .exhausted error taken frames' hseq hrun ?_ hmax
        have hseq' : frames'.nextSeq + 1 = frames.nextSeq + 1 + taken.length := hseq'
        omega
    · have hadvance : frames.advance = .error sequenceExhausted := if_neg hnext
      rw [hadvance]
      exact .exhausted sequenceExhausted [] frames hseq ⟨.refl _, rfl, h⟩ rfl
        (Nat.le_of_not_lt hnext)

/-! ### Any delivery -/

section Any

variable {label : α → ℕ} {delivered : List (ℕ × α)} {released : List α}

/-- **What holds after any delivery of labelled records**: the counter is right, what is kept or
released came under the number it is labelled with, and the numbers that were released are the
first ones, in order.  Once the numbers ran out nothing is released any more. -/
structure Orderly (len label : α → ℕ) (delivered : List (ℕ × α)) (released : List α)
    (frames : OrderedCiphertextFrames α) : Prop where
  counted : Counted len frames
  held : ∀ entry ∈ frames.pending, entry ∈ delivered
  came : ∀ record ∈ released, (label record, record) ∈ delivered
  labels : ∃ count, released.map label = List.range count ∧
    (count = frames.nextSeq ∨ count ≤ frames.nextSeq ∧ 2 ^ 32 ≤ frames.nextSeq + 1)

theorem Orderly.start : Orderly len label [] [] (start : OrderedCiphertextFrames α) :=
  ⟨.start, fun _ h => absurd h not_mem_nil, fun _ h => absurd h not_mem_nil, 0, rfl, .inl rfl⟩

variable {result : Except ExecServerError (List α)}

section

variable (h : PushStep len frames seq payload result frames')

include h

/-- The numbers do not go back. -/
theorem PushStep.next_le : frames.nextSeq ≤ frames'.nextSeq := by
  cases h with
  | released | exhausted => omega
  | _ => exact le_rfl

theorem PushStep.counted (hframes : Counted len frames) : Counted len frames' := by
  cases h with
  | kept _ hnew =>
    refine ⟨?_, nodup_cons.mpr ⟨hnew, hframes.nodup⟩⟩
    rw [hframes.bytes, Nat.add_comm]
    rfl
  | released _ _ _ _ run => exact run.counted
  | exhausted _ _ _ _ run => exact run.counted
  | _ => exact hframes

/-- What a step keeps came with it or was kept before. -/
theorem PushStep.mem_pending {entry : ℕ × α}
    (hmem : entry ∈ frames'.pending) : entry = (seq, payload) ∨ entry ∈ frames.pending := by
  cases h with
  | kept => exact mem_cons.mp hmem
  | released _ _ _ _ run =>
    exact .inr (run.perm.mem_iff.mpr (mem_append_right _ hmem))
  | exhausted _ _ _ _ run =>
    exact .inr (run.perm.mem_iff.mpr (mem_append_right _ hmem))
  | _ => exact .inr hmem

end

variable (h : Orderly len label delivered released frames)
  (hlabel : ∀ entry ∈ delivered, label entry.2 = entry.1)
include h hlabel

/-- A step hands on the next numbers, if any. -/
theorem Orderly.push (hpayload : label payload = seq) :
    Orderly len label (delivered ++ [(seq, payload)])
      (released ++ (frames.push len seq payload).1.toOption.getD [])
      (frames.push len seq payload).2 := by
  have hstep := push_step h.counted seq payload
  generalize (frames.push len seq payload).1 = result,
    (frames.push len seq payload).2 = frames' at hstep ⊢
  have hheld : ∀ entry ∈ frames'.pending, entry ∈ delivered ++ [(seq, payload)] := by
    intro entry hentry
    rcases hstep.mem_pending hentry with rfl | hentry
    · exact mem_append_right _ mem_cons_self
    · exact mem_append_left _ (h.held entry hentry)
  have hcame : ∀ record ∈ released, (label record, record) ∈ delivered ++ [(seq, payload)] :=
    fun record hrecord => mem_append_left _ (h.came record hrecord)
  obtain ⟨count, hcount, hnext⟩ := h.labels
  -- without a release, the numbers that were released are the same
  have hsame : (result.toOption.getD [] = [] ∧
      (frames'.nextSeq = frames.nextSeq ∨ 2 ^ 32 ≤ frames'.nextSeq + 1)) →
      Orderly len label (delivered ++ [(seq, payload)]) (released ++ result.toOption.getD [])
        frames' := by
    rintro ⟨hnone, hnext'⟩
    rw [hnone, append_nil]
    refine ⟨hstep.counted h.counted, hheld, hcame, count, hcount, ?_⟩
    have hle := hstep.next_le
    rcases hnext' with hnext' | hmax
    · rwa [hnext']
    · exact .inr ⟨by omega, hmax⟩
  cases hstep with
  | exhausted _ _ _ _ _ _ hroom => exact hsame ⟨rfl, .inr hroom⟩
  | released taken _ hseq _ run hnext' =>
    have htaken : ∀ entry ∈ taken, entry ∈ delivered := fun entry hentry =>
      h.held entry (run.perm.mem_iff.mpr (mem_append_left _ hentry))
    have hlabels : (taken.map Prod.snd).map label = List.range' (frames.nextSeq + 1) taken.length := by
      rw [← run.numbers, map_map]
      exact map_congr_left fun entry hentry => hlabel entry (htaken entry hentry)
    refine ⟨run.counted, hheld, ?_, frames'.nextSeq, ?_, .inl rfl⟩
    · intro record hrecord
      rcases mem_append.mp hrecord with hrecord | hrecord
      · exact hcame record hrecord
      rcases mem_cons.mp hrecord with rfl | hrecord
      · rw [hpayload]
        exact mem_append_right _ mem_cons_self
      · obtain ⟨entry, hentry, rfl⟩ := mem_map.mp hrecord
        rw [hlabel entry (htaken entry hentry)]
        exact mem_append_left _ (htaken entry hentry)
    · have hcount' : count = frames.nextSeq := hnext.resolve_right fun hmax => by omega
      show (released ++ payload :: taken.map Prod.snd).map label = _
      rw [map_append, hcount, map_cons, hlabels, hpayload, hseq, hcount', hnext', range_eq_range',
        range_eq_range', Nat.add_assoc, Nat.add_comm 1]
      have happend : List.range' 0 frames.nextSeq ++
          List.range' (0 + frames.nextSeq) (taken.length + 1) =
            List.range' 0 (frames.nextSeq + (taken.length + 1)) := List.range'_append_1
      rwa [Nat.zero_add] at happend
  | _ => exact hsame ⟨rfl, .inl rfl⟩

/-- **Whatever is delivered, records are released once and in order.** -/
theorem Orderly.pushAll (rest : List (ℕ × α)) (hrest : ∀ entry ∈ rest, label entry.2 = entry.1) :
    Orderly len label (delivered ++ rest) (released ++ (frames.pushAll len rest).1)
      (frames.pushAll len rest).2 := by
  induction rest generalizing delivered released frames with
  | nil => simpa [OrderedCiphertextFrames.pushAll] using h
  | cons entry _ ih =>
    obtain ⟨seq, payload⟩ := entry
    have hstep := h.push hlabel (hrest (seq, payload) mem_cons_self)
    have hdelivered : ∀ entry ∈ delivered ++ [(seq, payload)], label entry.2 = entry.1 := by
      intro entry hentry
      rcases mem_append.mp hentry with hentry | hentry
      · exact hlabel entry hentry
      · exact hrest entry (mem_singleton.mp hentry ▸ mem_cons_self)
    have hall := ih hstep hdelivered fun entry hentry =>
      hrest entry (mem_cons_of_mem _ hentry)
    rw [append_assoc, append_assoc] at hall
    exact hall

end Any

/-! ### Labels can be left off -/

/-- The same state with other records. -/
def map (g : α → β) (frames : OrderedCiphertextFrames α) : OrderedCiphertextFrames β :=
  ⟨frames.nextSeq, frames.pending.map (Prod.map id g), frames.pendingBytes⟩

section Map

variable {len' : β → ℕ} {g : α → β}

section

variable (hlen : ∀ record, len' (g record) = len record)

include hlen

variable (frames : OrderedCiphertextFrames α)

end

end Map

/-! ### A delivery within the window -/

section Window

open Reorder

variable {payload : ℕ → α} {delivered : List ℕ}

/-- What is kept after the numbers `delivered`: the records that are ahead of a missing one. -/
structure Keeps (len : α → ℕ) (payload : ℕ → α) (delivered : List ℕ)
    (frames : OrderedCiphertextFrames α) : Prop where
  counted : Counted len frames
  next : frames.nextSeq = expected delivered
  mem_pending : ∀ entry, entry ∈ frames.pending ↔
    entry.1 ∈ ahead delivered ∧ entry.2 = payload entry.1

theorem Keeps.start : Keeps len payload [] (start : OrderedCiphertextFrames α) :=
  ⟨.start, expected_nil.symm, fun entry => by simp [OrderedCiphertextFrames.start, ahead]⟩

section

variable (h : Keeps len payload delivered frames)

include h

theorem Keeps.mem_keys : seq ∈ frames.keys ↔ seq ∈ ahead delivered := by
  constructor
  · intro hmem
    obtain ⟨entry, hentry, rfl⟩ := mem_map.mp hmem
    exact ((h.mem_pending entry).mp hentry).1
  · intro hmem
    exact mem_map.mpr ⟨(seq, payload seq), (h.mem_pending _).mpr ⟨hmem, rfl⟩, rfl⟩

/-- The counter counts the records ahead. -/
theorem Keeps.bytes : frames.pendingBytes = ∑ seq ∈ ahead delivered, len (payload seq) := by
  have hkeys : frames.keys.toFinset = ahead delivered := by
    ext seq
    rw [mem_toFinset, h.mem_keys]
  have hsize : size len frames.pending = (frames.keys.map fun seq => len (payload seq)).sum := by
    rw [keys, map_map]
    refine congrArg List.sum (map_congr_left fun entry hentry => ?_)
    exact congrArg len ((h.mem_pending entry).mp hentry).2
  rw [h.counted.bytes, hsize, ← sum_toFinset _ h.counted.nodup, hkeys]

/-- A number that is not the missing one leaves what was released as it is. -/
theorem Keeps.push_other
    (hseq : seq ≠ expected delivered) (hfar : seq ≤ expected delivered + maxReorderDistance)
    (hsize : ∑ n ∈ ahead (delivered ++ [seq]), len (payload n) ≤ maxPendingBytes) :
    (frames.push len seq (payload seq)).1 = .ok [] ∧
      Keeps len payload (delivered ++ [seq]) (frames.push len seq (payload seq)).2 := by
  have hstep := push_step h.counted seq (payload seq)
  generalize (frames.push len seq (payload seq)).1 = result,
    (frames.push len seq (payload seq)).2 = frames' at hstep ⊢
  have hnext := expected_concat_of_ne hseq
  have hahead : ∀ n, n ∈ ahead (delivered ++ [seq]) ↔
      n ∈ ahead delivered ∨ n = seq ∧ expected delivered < seq := by
    intro n
    rw [mem_ahead, mem_ahead, hnext, mem_append, mem_singleton, or_and_right]
    refine or_congr_right ⟨?_, ?_⟩
    all_goals
      rintro ⟨rfl, hlt⟩
      exact ⟨rfl, hlt⟩
  cases hstep with
  | duplicate hdup =>
    -- below the missing number, or kept already
    have hold : expected delivered < seq → seq ∈ ahead delivered := fun hlt =>
      h.mem_keys.mp (hdup.resolve_left (by have := h.next; omega))
    refine ⟨rfl, h.counted, h.next.trans hnext.symm, fun entry => ?_⟩
    rw [h.mem_pending, hahead]
    refine and_congr_left fun _ => ⟨.inl, ?_⟩
    rintro (hmem | ⟨heq, hlt⟩)
    · exact hmem
    · exact heq ▸ hold hlt
  | tooFar =>
    have := h.next
    omega
  | full _ hlt hnew =>
    have hnot : seq ∉ ahead delivered := fun hmem => hnew (h.mem_keys.mpr hmem)
    have hinsert : ahead (delivered ++ [seq]) = insert seq (ahead delivered) := by
      ext n
      rw [hahead, Finset.mem_insert]
      have hlt' : expected delivered < seq := h.next ▸ hlt
      exact ⟨fun hn => hn.elim .inr fun hn => .inl hn.1,
        fun hn => hn.elim (fun hn => .inr ⟨hn, hlt'⟩) .inl⟩
    rw [hinsert, Finset.sum_insert hnot, ← h.bytes] at hsize
    omega
  | kept hlt hnew =>
    have hlt' : expected delivered < seq := h.next ▸ hlt
    refine ⟨rfl, (PushStep.kept hlt hnew).counted h.counted, h.next.trans hnext.symm, fun entry => ?_⟩
    rw [mem_cons, h.mem_pending, hahead]
    constructor
    · rintro (rfl | ⟨hmem, heq⟩)
      · exact ⟨.inr ⟨rfl, hlt'⟩, rfl⟩
      · exact ⟨.inl hmem, heq⟩
    · rintro ⟨hmem | ⟨heq, -⟩, hpayload⟩
      · exact .inr ⟨hmem, hpayload⟩
      · exact .inl (Prod.ext heq (hpayload.trans (congrArg payload heq)))
  | released _ _ heq => exact absurd (heq.trans h.next) hseq
  | exhausted _ _ _ heq => exact absurd (heq.trans h.next) hseq

/-- The missing number lets all records up to the next gap through. -/
theorem Keeps.push_expected
    (hseq : seq = expected delivered) (hcount : ∀ n ∈ delivered ++ [seq], n + 1 < 2 ^ 32) :
    ∃ count, (frames.push len seq (payload seq)).1 = .ok ((List.range' seq (count + 1)).map payload) ∧
      expected (delivered ++ [seq]) = seq + (count + 1) ∧
      Keeps len payload (delivered ++ [seq]) (frames.push len seq (payload seq)).2 := by
  have hstep := push_step h.counted seq (payload seq)
  generalize (frames.push len seq (payload seq)).1 = result,
    (frames.push len seq (payload seq)).2 = frames' at hstep ⊢
  have hnext : frames.nextSeq = seq := h.next.trans hseq.symm
  have hpending : ∀ entry ∈ frames.pending, entry.1 ∈ delivered ∧ seq < entry.1 ∧
      entry.2 = payload entry.1 := by
    intro entry hentry
    obtain ⟨hmem, hpayload⟩ := (h.mem_pending entry).mp hentry
    obtain ⟨hmem, hlt⟩ := mem_ahead.mp hmem
    exact ⟨hmem, hseq ▸ hlt, hpayload⟩
  cases hstep with
  | duplicate hdup =>
    refine absurd hdup (not_or.mpr ⟨by omega, fun hmem => ?_⟩)
    exact absurd (mem_ahead.mp (h.mem_keys.mp hmem)).2 (by omega)
  | exhausted _ taken _ heq run _ hmax =>
    -- the last number that was taken was delivered
    have hlast : frames'.nextSeq ∈ delivered ++ [seq] := by
      by_cases htaken : taken.length = 0
      · exact mem_append_right _ (mem_singleton.mpr (by omega))
      have hmem : frames'.nextSeq ∈ taken.map Prod.fst := by
        rw [run.numbers, mem_range'_1]
        show frames.nextSeq + 1 ≤ _ ∧ _ < frames.nextSeq + 1 + _
        omega
      obtain ⟨entry, hentry, heq⟩ := mem_map.mp hmem
      rw [← heq]
      exact mem_append_left _
        (hpending entry (run.perm.mem_iff.mpr (mem_append_left _ hentry))).1
    exact absurd (hcount _ hlast) (Nat.not_lt.mpr hmax)
  | released taken _ heq _ run _ hgap =>
    have htaken : ∀ entry ∈ taken, entry ∈ frames.pending := fun entry hentry =>
      run.perm.mem_iff.mpr (mem_append_left _ hentry)
    have hrest : ∀ entry ∈ frames'.pending, entry ∈ frames.pending := fun entry hentry =>
      run.perm.mem_iff.mpr (mem_append_right _ hentry)
    have hnumbers : taken.map Prod.fst = List.range' (seq + 1) taken.length := by
      rw [run.numbers]
      exact congrArg (List.range' · taken.length) (congrArg (· + 1) hnext)
    have hnodup : (taken.map Prod.fst ++ frames'.keys).Nodup := by
      have hkeys := (run.perm.map Prod.fst).nodup_iff.mp h.counted.nodup
      rwa [map_append] at hkeys
    have hexpected : expected (delivered ++ [seq]) = frames'.nextSeq := by
      refine expected_eq (fun n hn => ?_) fun hmem => ?_
      · rcases lt_trichotomy n seq with hlt | rfl | hgt
        · exact mem_append_left _ (mem_of_lt_expected (hseq ▸ hlt))
        · exact mem_append_right _ (mem_singleton_self n)
        · have hmem : n ∈ taken.map Prod.fst := by
            rw [hnumbers, mem_range'_1]
            omega
          obtain ⟨entry, hentry, rfl⟩ := mem_map.mp hmem
          exact mem_append_left _ (hpending entry (htaken entry hentry)).1
      · rcases mem_append.mp hmem with hmem | hmem
        · -- it would have been kept, and taken out
          have hkey : frames'.nextSeq ∈ frames.keys :=
            h.mem_keys.mpr (mem_ahead.mpr ⟨hmem, by omega⟩)
          have hsplit := ((run.perm.map Prod.fst).mem_iff).mp hkey
          rw [map_append, mem_append, hnumbers, mem_range'_1] at hsplit
          rcases hsplit with hsplit | hsplit
          · omega
          · exact hgap hsplit
        · have := mem_singleton.mp hmem
          omega
    refine ⟨taken.length, ?_, by omega, run.counted, hexpected.symm, fun entry => ?_⟩
    · have hpayloads : taken.map Prod.snd = (taken.map Prod.fst).map payload := by
        rw [map_map]
        exact map_congr_left fun entry hentry => (hpending entry (htaken entry hentry)).2.2
      rw [hpayloads, hnumbers, List.range'_succ, map_cons]
    · rw [mem_ahead]
      constructor
      · intro hentry
        obtain ⟨hmem, hlt, hpayload⟩ := hpending entry (hrest entry hentry)
        have hkey : entry.1 ∈ frames'.keys := mem_map.mpr ⟨entry, hentry, rfl⟩
        have hne : entry.1 ≠ frames'.nextSeq := fun heq => hgap (heq ▸ hkey)
        have hnot : entry.1 ∉ taken.map Prod.fst := fun hmem =>
          disjoint_of_nodup_append hnodup hmem hkey
        rw [hnumbers, mem_range'_1] at hnot
        exact ⟨⟨mem_append_left _ hmem, by omega⟩, hpayload⟩
      · rintro ⟨⟨hmem, hlt⟩, hpayload⟩
        have hold : entry.1 ∈ delivered := by
          refine (mem_append.mp hmem).resolve_right fun hmem => ?_
          have := mem_singleton.mp hmem
          omega
        have hentry : entry ∈ frames.pending :=
          (h.mem_pending entry).mpr ⟨mem_ahead.mpr ⟨hold, by omega⟩, hpayload⟩
        refine (mem_append.mp (run.perm.mem_iff.mp hentry)).resolve_left fun htake => ?_
        have hkey : entry.1 ∈ taken.map Prod.fst := mem_map.mpr ⟨entry, htake, rfl⟩
        rw [hnumbers, mem_range'_1] at hkey
        omega
  | _ => omega

/-- **Within the window a record is never refused**, and what is released goes up to the next
missing number. -/
theorem Keeps.push (hcount : ∀ n ∈ delivered ++ [seq], n + 1 < 2 ^ 32)
    (hfar : seq ≤ expected delivered + maxReorderDistance)
    (hsize : ∑ n ∈ ahead (delivered ++ [seq]), len (payload n) ≤ maxPendingBytes) :
    ∃ count, (frames.push len seq (payload seq)).1 =
        .ok ((List.range' (expected delivered) count).map payload) ∧
      expected (delivered ++ [seq]) = expected delivered + count ∧
      Keeps len payload (delivered ++ [seq]) (frames.push len seq (payload seq)).2 := by
  by_cases hseq : seq = expected delivered
  · obtain ⟨count, hresult, hexpected, hkeeps⟩ := h.push_expected hseq hcount
    rw [← hseq]
    exact ⟨count + 1, hresult, hexpected, hkeeps⟩
  · obtain ⟨hresult, hkeeps⟩ := h.push_other hseq hfar hsize
    exact ⟨0, hresult, expected_concat_of_ne hseq, hkeeps⟩

end

end Window

end OrderedCiphertextFrames

end NoiseRelay

end CodexPlus
