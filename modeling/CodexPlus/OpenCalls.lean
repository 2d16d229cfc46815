/-
CodexPlus/OpenCalls.lean

A log in which some entries open a call and others answer one.  An answer
names the call it closes, or closes the call that has waited longest.

`waiting` keeps the unanswered calls, oldest first, one log entry at a time.
What it is for is `answered_of_waiting_eq_nil`: when nothing waits, every
call of the log has an answer of its own that comes after it.
-/
import Mathlib.Data.List.Induction
import Mathlib.Data.Set.Function
import Mathlib.Logic.Function.Basic

namespace CodexPlus

open List

namespace OpenCalls

variable {ι : Type}

/-- What one entry of the log does to the calls that wait for an answer. -/
inductive Mark (ι : Type) where
  | opens (id : ι)
  | closes (id : ι)
  | closesOldest
  | inert
  deriving DecidableEq, Repr

/-! ### Every call that no longer waits has an answer of its own -/

/-- Entry `j` can be the answer of a call `id` opened at entry `i`. -/
def IsAnswer (log : List (Mark ι)) (i : ℕ) (id : ι) (j : ℕ) : Prop :=
  i < j ∧ (log[j]? = some (.closes id) ∨ log[j]? = some .closesOldest)

/-- **Every call of the log is answered**: each has an answer after it, and no two share one. -/
def Answered (log : List (Mark ι)) : Prop :=
  ∃ answer : ℕ → ℕ,
    (∀ i id, log[i]? = some (.opens id) → IsAnswer log i id (answer i)) ∧
    Set.InjOn answer {i | ∃ id, log[i]? = some (.opens id)}

variable {log : List (Mark ι)} {m : Mark ι} {id : ι} {answer : ℕ → ℕ} {i : ℕ}

theorem getElem?_concat_of_lt (h : i < log.length) (m : Mark ι) : (log ++ [m])[i]? = log[i]? :=
  getElem?_append_left h

theorem lt_of_getElem?_eq_some (h : log[i]? = some m) : i < log.length :=
  (List.getElem?_eq_some_iff.mp h).1

theorem IsAnswer.lt_length {j : ℕ} (h : IsAnswer log i id j) : j < log.length :=
  h.2.elim lt_of_getElem?_eq_some lt_of_getElem?_eq_some

theorem IsAnswer.concat {j : ℕ} (h : IsAnswer log i id j)
    (m : Mark ι) : IsAnswer (log ++ [m]) i id j := by
  refine ⟨h.1, ?_⟩
  rw [getElem?_concat_of_lt h.lt_length]
  exact h.2

/-- An entry of `log ++ [m]` that opens a call is one of `log`, or it is `m`. -/
theorem getElem?_concat_opens (h : (log ++ [m])[i]? = some (.opens id)) :
    log[i]? = some (.opens id) ∨ (i = log.length ∧ m = .opens id) := by
  rcases Nat.lt_trichotomy i log.length with hi | rfl | hi
  · exact .inl (by rwa [getElem?_concat_of_lt hi] at h)
  · exact .inr ⟨rfl, by simpa using h⟩
  · rw [getElem?_eq_none (by simp; omega)] at h
    cases h

theorem getElem?_of_concat_opens (hm : ∀ id, m ≠ .opens id)
    (h : (log ++ [m])[i]? = some (.opens id)) : log[i]? = some (.opens id) := by
  rcases getElem?_concat_opens h with h | ⟨-, hid⟩
  · exact h
  · exact absurd hid (hm id)

theorem exists_split_of_mem_map {l : List (ℕ × ι)} (h : id ∈ l.map Prod.snd) :
    ∃ before p after, l = before ++ p :: after ∧ p.2 = id ∧ id ∉ before.map Prod.snd := by
  classical
  obtain ⟨b, a, hba, hnot⟩ := eq_append_cons_of_mem h
  obtain ⟨before, rest, rfl, rfl, hrest⟩ := map_eq_append_iff.mp hba
  obtain ⟨p, after, rfl, hp, rfl⟩ := map_eq_cons_iff.mp hrest
  exact ⟨before, p, after, rfl, hp, hnot⟩

variable [DecidableEq ι]

def step (open_ : List ι) : Mark ι → List ι
  | .opens id => open_ ++ [id]
  | .closes id => open_.erase id
  | .closesOldest => open_.tail
  | .inert => open_

/-- The calls of `log` that still wait for an answer, oldest first. -/
def waiting (log : List (Mark ι)) : List ι := log.foldl step []

@[simp] theorem waiting_nil : waiting ([] : List (Mark ι)) = [] := rfl

@[simp] theorem waiting_concat (log : List (Mark ι)) (m : Mark ι) :
    waiting (log ++ [m]) = step (waiting log) m := by
  simp [waiting]

/-- The bookkeeping behind `waiting`: `open_` pairs each waiting call with the entry that opened
it, and every other call of the log is answered. -/
structure Pairing (log : List (Mark ι)) (open_ : List (ℕ × ι)) (answer : ℕ → ℕ) : Prop where
  ids : open_.map Prod.snd = waiting log
  opened : ∀ p ∈ open_, log[p.1]? = some (.opens p.2)
  nodup : (open_.map Prod.fst).Nodup
  answered : ∀ i id, log[i]? = some (.opens id) → (i, id) ∉ open_ → IsAnswer log i id (answer i)
  inj : ∀ i id j id', log[i]? = some (.opens id) → (i, id) ∉ open_ →
    log[j]? = some (.opens id') → (j, id') ∉ open_ → answer i = answer j → i = j

variable {open_ : List (ℕ × ι)}

/-- An entry that opens no call and closes none keeps the bookkeeping. -/
theorem Pairing.skip (h : Pairing log open_ answer) (hm : ∀ id, m ≠ .opens id)
    (hstep : step (waiting log) m = waiting log) : Pairing (log ++ [m]) open_ answer := by
  refine ⟨by rw [waiting_concat, hstep, h.ids], ?_, h.nodup, ?_, ?_⟩
  · intro p hp
    have hp' := h.opened p hp
    rw [getElem?_concat_of_lt (lt_of_getElem?_eq_some hp'), hp']
  · intro i id hi hn
    exact (h.answered i id (getElem?_of_concat_opens hm hi) hn).concat m
  · intro i id j id' hi hn hj hn'
    exact h.inj i id j id' (getElem?_of_concat_opens hm hi) hn (getElem?_of_concat_opens hm hj) hn'

/-- An entry that opens a call adds it to the waiting ones. -/
theorem Pairing.opens (h : Pairing log open_ answer) (id : ι) :
    Pairing (log ++ [.opens id]) (open_ ++ [(log.length, id)]) answer := by
  have hold : ∀ i id', (log ++ [.opens id])[i]? = some (.opens id') →
      (i, id') ∉ open_ ++ [(log.length, id)] →
      log[i]? = some (.opens id') ∧ (i, id') ∉ open_ := by
    intro i id' hi hn
    rw [mem_append, mem_singleton, not_or] at hn
    rcases getElem?_concat_opens hi with hi | ⟨rfl, hid⟩
    · exact ⟨hi, hn.1⟩
    · cases hid
      exact absurd rfl hn.2
  refine ⟨by simp [h.ids, step], ?_, ?_, ?_, ?_⟩
  · intro p hp
    rcases mem_append.mp hp with hp | hp
    · have hp' := h.opened p hp
      rw [getElem?_concat_of_lt (lt_of_getElem?_eq_some hp'), hp']
    · obtain rfl := mem_singleton.mp hp
      simp
  · rw [map_append, nodup_append]
    refine ⟨h.nodup, by simp, ?_⟩
    intro i hi j hj
    obtain ⟨p, hp, rfl⟩ := mem_map.mp hi
    have hlt := lt_of_getElem?_eq_some (h.opened p hp)
    simp only [map_cons, map_nil, mem_singleton] at hj
    omega
  · intro i id' hi hn
    obtain ⟨hi, hn⟩ := hold i id' hi hn
    exact (h.answered i id' hi hn).concat _
  · intro i id' j id'' hi hn hj hn'
    obtain ⟨hi, hn⟩ := hold i id' hi hn
    obtain ⟨hj, hn'⟩ := hold j id'' hj hn'
    exact h.inj i id' j id'' hi hn hj hn'

/-- An entry that closes the waiting call `p` becomes its answer. -/
theorem Pairing.close {before after : List (ℕ × ι)} {p : ℕ × ι} (h : Pairing log (before ++ p :: after) answer)
    (hm : m = .closes p.2 ∨ m = .closesOldest)
    (hstep : step (waiting log) m = (before ++ after).map Prod.snd) :
    Pairing (log ++ [m]) (before ++ after) (Function.update answer p.1 log.length) := by
  have hopens : ∀ id, m ≠ .opens id := by rcases hm with rfl | rfl <;> simp
  have hp : log[p.1]? = some (.opens p.2) := h.opened p (by simp)
  -- A call that is no longer waiting is `p`, or was not waiting before.
  have hgone : ∀ i id, log[i]? = some (.opens id) → (i, id) ∉ before ++ after →
      i = p.1 ∨ (i ≠ p.1 ∧ (i, id) ∉ before ++ p :: after) := by
    intro i id hi hn
    rcases eq_or_ne i p.1 with rfl | hne
    · exact .inl rfl
    · refine .inr ⟨hne, ?_⟩
      simp only [mem_append, mem_cons, not_or] at hn ⊢
      exact ⟨hn.1, fun e => hne (congrArg Prod.fst e), hn.2⟩
  refine ⟨by rw [waiting_concat, hstep], ?_, ?_, ?_, ?_⟩
  · intro q hq
    have hq' := h.opened q (by
      rcases mem_append.mp hq with hq | hq <;> simp [hq])
    rw [getElem?_concat_of_lt (lt_of_getElem?_eq_some hq'), hq']
  · refine h.nodup.sublist (List.Sublist.map _ ?_)
    exact (List.Sublist.refl before).append (sublist_cons_self p after)
  · intro i id hi hn
    have hi := getElem?_of_concat_opens hopens hi
    rcases hgone i id hi hn with rfl | ⟨hne, hn⟩
    · have hid : p.2 = id := by simpa [hp] using hi
      refine ⟨by simpa using lt_of_getElem?_eq_some hi, ?_⟩
      rcases hm with rfl | rfl <;> simp [hid]
    · rw [Function.update_of_ne hne]
      exact (h.answered i id hi hn).concat m
  · intro i id j id' hi hn hj hn' heq
    have hi := getElem?_of_concat_opens hopens hi
    have hj := getElem?_of_concat_opens hopens hj
    rcases hgone i id hi hn with rfl | ⟨hne, hn⟩ <;> rcases hgone j id' hj hn' with rfl | ⟨hne', hn'⟩
    · rfl
    · rw [Function.update_self, Function.update_of_ne hne'] at heq
      have := (h.answered j id' hj hn').lt_length
      omega
    · rw [Function.update_self, Function.update_of_ne hne] at heq
      have := (h.answered i id hi hn).lt_length
      omega
    · rw [Function.update_of_ne hne, Function.update_of_ne hne'] at heq
      exact h.inj i id j id' hi hn hj hn' heq

/-- Every log has such a bookkeeping. -/
theorem exists_pairing (log : List (Mark ι)) : ∃ open_ answer, Pairing log open_ answer := by
  induction log using List.reverseRecOn with
  | nil => exact ⟨[], id, by constructor <;> simp⟩
  | append_singleton log m ih =>
    obtain ⟨open_, answer, h⟩ := ih
    cases m with
    | opens id => exact ⟨_, _, h.opens id⟩
    | inert => exact ⟨_, _, h.skip (by simp) rfl⟩
    | closesOldest =>
      rcases open_ with - | ⟨p, after⟩
      · have hids := h.ids
        exact ⟨_, _, h.skip (by simp) (by rw [← hids]; rfl)⟩
      · have hids := h.ids
        have hp : Pairing log ([] ++ p :: after) answer := h
        exact ⟨_, _, hp.close (.inr rfl) (by rw [← hids]; rfl)⟩
    | closes id =>
      have hids := h.ids
      by_cases hmem : id ∈ waiting log
      · obtain ⟨before, p, after, rfl, rfl, hnot⟩ := exists_split_of_mem_map (hids ▸ hmem)
        refine ⟨_, _, Pairing.close h (.inl rfl) ?_⟩
        rw [← hids, step, map_append, map_cons, erase_append_right _ hnot,
          erase_cons_head, map_append]
      · exact ⟨_, _, h.skip (by simp) (erase_of_not_mem hmem)⟩

/-- **A log in which nothing waits answers every call it opens.** -/
theorem answered_of_waiting_eq_nil (h : waiting log = []) : Answered log := by
  obtain ⟨open_, answer, hp⟩ := exists_pairing log
  have hnil : open_ = [] := by simpa [h] using hp.ids
  subst hnil
  refine ⟨answer, fun i id hi => hp.answered i id hi (by simp), ?_⟩
  rintro i ⟨id, hi⟩ j ⟨id', hj⟩ heq
  exact hp.inj i id j id' hi (by simp) hj (by simp) heq

/-! ### Where a waiting call was opened -/

/-- `step` for calls with the entry that opened them; `n` is the position of the mark. -/
def stepAt (n : ℕ) (open_ : List (ℕ × ι)) : Mark ι → List (ℕ × ι)
  | .opens id => open_ ++ [(n, id)]
  | .closes id => open_.eraseP (·.2 == id)
  | .closesOldest => open_.tail
  | .inert => open_

/-- The waiting calls with the entries that opened them. -/
def waitingAt (log : List (Mark ι)) : List (ℕ × ι) :=
  log.zipIdx.foldl (fun open_ entry => stepAt entry.2 open_ entry.1) []

theorem waitingAt_concat (log : List (Mark ι)) (m : Mark ι) :
    waitingAt (log ++ [m]) = stepAt log.length (waitingAt log) m := by
  rw [waitingAt, zipIdx_append, foldl_append, Nat.zero_add]
  rfl

theorem stepAt_map_snd (n : ℕ) (open_ : List (ℕ × ι)) (m : Mark ι) :
    (stepAt n open_ m).map Prod.snd = step (open_.map Prod.snd) m := by
  cases m with
  | opens => rw [stepAt, map_append]; rfl
  | closes => rw [stepAt, step, erase_eq_eraseP, eraseP_map]; congr 2; funext p; simp [eq_comm]
  | closesOldest => rw [stepAt, step, map_tail]
  | inert => rfl

theorem waitingAt_map_snd (log : List (Mark ι)) : (waitingAt log).map Prod.snd = waiting log := by
  induction log using List.reverseRecOn with
  | nil => rfl
  | append_singleton _ _ ih => rw [waitingAt_concat, stepAt_map_snd, ih, waiting_concat]

/-- No call is opened under an id that waits. -/
def Distinct (log : List (Mark ι)) : Prop :=
  ∀ before id, before ++ [.opens id] <+: log → id ∉ waiting before

theorem Distinct.of_concat (h : Distinct (log ++ [m])) : Distinct log :=
  fun before id hpre => h before id (hpre.trans (prefix_append _ _))

variable (h : Distinct log)
include h

theorem Distinct.concat (hm : ∀ id, m = .opens id → id ∉ waiting log) : Distinct (log ++ [m]) := by
  intro before id hpre
  rcases prefix_concat_iff.mp hpre with heq | hpre
  · obtain ⟨rfl, hlast⟩ := append_inj' heq rfl
    exact hm id (List.cons.inj hlast).1.symm
  · exact h before id hpre

theorem Distinct.nodup : (waiting log).Nodup := by
  induction log using List.reverseRecOn with
  | nil => exact nodup_nil
  | append_singleton log m ih =>
    have hlog := ih h.of_concat
    rw [waiting_concat]
    cases m with
    | opens id =>
      have hnew : id ∉ waiting log := h log id (prefix_rfl)
      refine nodup_append.mpr ⟨hlog, by simp, ?_⟩
      intro a ha b hb
      rw [mem_singleton.mp hb]
      rintro rfl
      exact hnew ha
    | closes id => exact hlog.erase id
    | closesOldest => exact hlog.sublist (tail_sublist _)
    | inert => exact hlog

/-- **A waiting call has seen no answer under its name**, when no id waits twice. -/
theorem Distinct.not_closes {p : ℕ × ι}
    (hp : p ∈ waitingAt log) : p.1 < log.length ∧ ∀ j, p.1 < j → log[j]? ≠ some (.closes p.2) := by
  induction log using List.reverseRecOn generalizing p with
  | nil => cases hp
  | append_singleton log m ih =>
    have hlog := h.of_concat
    -- a call that waited before saw none but `m`, and `m` did not close it
    have hold : p ∈ waitingAt log → m ≠ .closes p.2 →
        p.1 < (log ++ [m]).length ∧ ∀ j, p.1 < j → (log ++ [m])[j]? ≠ some (.closes p.2) := by
      intro hmem hne
      obtain ⟨hlt, hnone⟩ := ih hlog hmem
      refine ⟨by rw [length_append]; omega, fun j hj => ?_⟩
      rcases Nat.lt_trichotomy j log.length with hjl | rfl | hjl
      · rw [getElem?_concat_of_lt hjl]
        exact hnone j hj
      · rw [getElem?_concat_length]
        exact fun heq => hne (Option.some.inj heq)
      · rw [getElem?_eq_none (by simp; omega)]
        exact fun heq => by cases heq
    rw [waitingAt_concat] at hp
    cases m with
    | opens =>
      rcases mem_append.mp hp with hp | hp
      · exact hold hp (by simp)
      · obtain rfl := mem_singleton.mp hp
        refine ⟨by simp, fun j hj => ?_⟩
        rw [getElem?_eq_none (by simp; omega)]
        exact fun heq => by cases heq
    | closes =>
      refine hold (mem_of_mem_eraseP hp) ?_
      rintro heq
      cases heq
      -- the ids that wait are distinct, so the call would have been the one erased
      have hnodup := hlog.nodup
      have herased : p.2 ∈ (waiting log).erase p.2 := by
        rw [← waitingAt_map_snd]
        have hmap := stepAt_map_snd 0 (waitingAt log) (.closes p.2)
        rw [step] at hmap
        rw [← hmap]
        exact mem_map_of_mem hp
      exact (List.Nodup.not_mem_erase hnodup) herased
    | closesOldest => exact hold (mem_of_mem_tail hp) (by simp)
    | inert => exact hold hp (by simp)

end OpenCalls

end CodexPlus
