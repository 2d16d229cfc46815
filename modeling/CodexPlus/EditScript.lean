/-
CodexPlus/EditScript.lean

Lists of edits that are planned against one state and then run one after the
other.

An edit puts a value under a key, drops a key, or rewrites the value of a key,
possibly moving it onto another key.  Each edit carries what was planned for it
and what is actually done, which need not be the same.  Planning looks at the
initial state only; running goes through the changing one.

`keeps_iff` says when the run keeps every promise of the plan: no two edits
promise different things about a key (`Consistent`), and each edit, on the value
that the moves before it left under its key, gives what was planned, unless a
later edit writes the same key (`LastWord`).
-/
import Mathlib.Data.List.Induction
import Mathlib.Data.List.Nodup
import Mathlib.Logic.Function.Basic

namespace CodexPlus

open List

namespace EditScript

variable {K V : Type}

inductive Effect (K V : Type) where
  | put (planned actual : V)
  | drop
  | edit (onto : Option K) (planned actual : V → Option V)

structure Edit (K V : Type) where
  key : K
  effect : Effect K V

namespace Edit

variable (e : Edit K V)

/-- The key that gets a value. -/
def target : Option K :=
  match e.effect with
  | .put _ _ => some e.key
  | .drop => none
  | .edit none _ _ => some e.key
  | .edit (some onto) _ _ => some onto

/-- The key that loses its value. -/
def removed : Option K :=
  match e.effect with
  | .drop => some e.key
  | .edit (some _) _ _ => some e.key
  | _ => none

/-- The key an edit moves its value onto. -/
def onto : Option K :=
  match e.effect with
  | .edit onto _ _ => onto
  | _ => none

/-- The value that was planned for the target. -/
def planned (f : K → Option V) : Option V :=
  match e.effect with
  | .put v _ => some v
  | .drop => none
  | .edit _ g _ => (f e.key).bind g

/-- The value the target gets if the edit finds `x` under its key. -/
def actual (x : Option V) : Option V :=
  match e.effect with
  | .put _ v => some v
  | .drop => none
  | .edit _ _ g => x.bind g

/-- Planning succeeded. -/
def Planned (f : K → Option V) (e : Edit K V) : Prop :=
  match e.effect with
  | .put _ _ => True
  | .drop => (f e.key).isSome
  | .edit _ g _ => ((f e.key).bind g).isSome

/-- What the plan says about `k` afterwards. -/
def Promises (f : K → Option V) (e : Edit K V) (k : K) (c : Option V) : Prop :=
  (e.target = some k ∧ c = e.planned f) ∨ (e.removed = some k ∧ c = none)

variable [DecidableEq K]

def run (F : K → Option V) : Option (K → Option V) :=
  match e.effect with
  | .put _ v => some (Function.update F e.key (some v))
  | .drop => if (F e.key).isSome then some (Function.update F e.key none) else none
  | .edit onto _ g =>
    ((F e.key).bind g).map fun v =>
      match onto with
      | none => Function.update F e.key (some v)
      | some onto => Function.update (Function.update F onto (some v)) e.key none

end Edit

/-! ### One edit -/

open Edit

section Step

variable {e : Edit K V} {f F F' : K → Option V} {k : K}

theorem Edit.planned_of_target (h : e.Planned f) (htarget : e.target = some k) :
    ∃ v, e.planned f = some v := by
  obtain ⟨key, effect⟩ := e
  rcases effect with ⟨planned, actual⟩ | - | ⟨onto, planned, actual⟩
  · exact ⟨planned, rfl⟩
  · cases htarget
  · exact Option.isSome_iff_exists.mp h

theorem Edit.removed_eq_key (h : e.removed = some k) : k = e.key := by
  obtain ⟨key, effect⟩ := e
  rcases effect with _ | _ | ⟨_ | onto, _, _⟩ <;> cases h <;> rfl

theorem Edit.target_of_onto (h : e.onto = some k) : e.target = some k ∧ e.removed = some e.key := by
  obtain ⟨key, effect⟩ := e
  rcases effect with _ | _ | ⟨_ | onto, _, _⟩ <;> cases h
  exact ⟨rfl, rfl⟩

theorem Edit.target_eq (h : e.target = some k) : k = e.key ∨ e.onto = some k := by
  obtain ⟨key, effect⟩ := e
  rcases effect with _ | _ | ⟨_ | onto, _, _⟩ <;> cases h
  · exact .inl rfl
  · exact .inl rfl
  · exact .inr rfl

theorem Edit.removed_of_target_none (h : e.target = none) : e.removed = some e.key := by
  obtain ⟨key, effect⟩ := e
  rcases effect with _ | _ | ⟨_ | onto, _, _⟩ <;> cases h
  rfl

theorem Edit.isSome_of_target_none (h : e.Planned f) (htarget : e.target = none) :
    (f e.key).isSome := by
  obtain ⟨key, effect⟩ := e
  rcases effect with _ | _ | ⟨_ | onto, _, _⟩ <;> cases htarget
  exact h

variable [DecidableEq K]

/-- What running one edit does to each key. -/
theorem Edit.run_eq_some (h : e.run F = some F') :
    (∀ k, e.target ≠ some k → e.removed ≠ some k → F' k = F k) ∧
      (∀ k, e.removed = some k → F' k = none) ∧
      (∀ k, e.target = some k → e.removed ≠ some k →
        ∃ v, e.actual (F e.key) = some v ∧ F' k = some v) := by
  obtain ⟨key, effect⟩ := e
  rcases effect with ⟨planned, v⟩ | - | ⟨onto, planned, g⟩
  · cases h
    refine ⟨fun k ht _ => ?_, by simp [removed], fun k ht _ => ⟨v, rfl, ?_⟩⟩
    · exact Function.update_of_ne (by rintro rfl; exact ht rfl) _ _
    · cases ht
      exact Function.update_self ..
  · simp only [run, Option.ite_none_right_eq_some, Option.some.injEq] at h
    obtain ⟨-, rfl⟩ := h
    refine ⟨fun k _ hr => ?_, fun k hr => ?_, by simp [target]⟩
    · exact Function.update_of_ne (by rintro rfl; exact hr rfl) _ _
    · cases hr
      exact Function.update_self ..
  · obtain ⟨v, hv, rfl⟩ := Option.map_eq_some_iff.mp h
    rcases onto with - | onto
    · refine ⟨fun k ht _ => ?_, by simp [removed], fun k ht _ => ⟨v, hv, ?_⟩⟩
      · exact Function.update_of_ne (by rintro rfl; exact ht rfl) _ _
      · cases ht
        exact Function.update_self ..
    · refine ⟨fun k ht hr => ?_, fun k hr => ?_, fun k ht hr => ⟨v, hv, ?_⟩⟩
      · show Function.update (Function.update F onto (some v)) key none k = F k
        rw [Function.update_of_ne (by rintro rfl; exact hr rfl),
          Function.update_of_ne (by rintro rfl; exact ht rfl)]
      · cases hr
        exact Function.update_self ..
      · cases ht
        show Function.update (Function.update F onto (some v)) key none onto = some v
        rw [Function.update_of_ne (by rintro rfl; exact hr rfl), Function.update_self]

theorem Edit.run_isSome :
    (e.run F).isSome ↔
      (e.target = none ∧ (F e.key).isSome) ∨
        (∃ k, e.target = some k) ∧ (e.actual (F e.key)).isSome := by
  obtain ⟨key, effect⟩ := e
  rcases effect with ⟨planned, v⟩ | - | ⟨onto, planned, g⟩
  · simp [run, target, actual]
  · simp [run, target, actual]
  · rcases onto with - | onto <;> cases h : (F key).bind g <;>
      simp [run, target, actual, h]

end Step

/-! ### Scripts -/

section Scripts

variable {es before after : List (Edit K V)} {e e' : Edit K V} {f F F' : K → Option V} {k : K}

/-- No two edits promise different things about a key. -/
def Consistent (f : K → Option V) (es : List (Edit K V)) : Prop :=
  ∀ e ∈ es, ∀ e' ∈ es, ∀ k c c', e.Promises f k c → e'.Promises f k c' → c = c'

theorem Consistent.sublist (h : Consistent f es) (hsub : before ⊆ es) : Consistent f before :=
  fun e he e' he' => h e (hsub he) e' (hsub he')

/-- A key that one edit clears is not the target of any. -/
theorem Consistent.target_ne (h : Consistent f es) (hplan : ∀ e ∈ es, e.Planned f)
    (he : e ∈ es) (he' : e' ∈ es) (hremoved : e.removed = some k) : e'.target ≠ some k := by
  intro htarget
  obtain ⟨v, hv⟩ := planned_of_target (hplan e' he') htarget
  have hnone := h e he e' he' k none _ (.inr ⟨hremoved, rfl⟩) (.inl ⟨htarget, rfl⟩)
  rw [hv] at hnone
  cases hnone

variable [DecidableEq K]

def runAll (es : List (Edit K V)) (F : K → Option V) : Option (K → Option V) :=
  es.foldlM (fun F e => e.run F) F

/-- What the moves of `before` left under `k`. -/
def seen (f : K → Option V) (before : List (Edit K V)) (k : K) : Option V :=
  before.foldl (fun x e => if e.onto = some k then e.actual (f e.key) else x) (f k)

/-- Each edit gives what was planned on what it finds, unless a later one writes the same key. -/
def LastWord (f : K → Option V) (es : List (Edit K V)) : Prop :=
  ∀ before e after, es = before ++ e :: after → ∀ k, e.target = some k →
    ∃ v, e.actual (seen f before e.key) = some v ∧
      (e.planned f = some v ∨ ∃ e' ∈ after, e'.target = some k)

theorem runAll_append {es es' : List (Edit K V)} :
    runAll (es ++ es') F = (runAll es F).bind (runAll es') :=
  foldlM_append

theorem runAll_cons : runAll (e :: es) F = (e.run F).bind (runAll es) := rfl

theorem runAll_frame (h : runAll es F = some F')
    (hk : ∀ e ∈ es, e.target ≠ some k ∧ e.removed ≠ some k) : F' k = F k := by
  induction es generalizing F with
  | nil =>
    cases h
    rfl
  | cons e _ ih =>
    obtain ⟨F₁, hrun, hrest⟩ := Option.bind_eq_some_iff.mp h
    obtain ⟨htarget, hremoved⟩ := hk e mem_cons_self
    rw [ih hrest fun e he => hk e (mem_cons_of_mem _ he),
      (run_eq_some hrun).1 k htarget hremoved]

theorem seen_eq_of_not_onto (hk : ∀ e ∈ before, e.onto ≠ some k) : seen f before k = f k := by
  induction before using List.reverseRecOn with
  | nil => rfl
  | append_singleton _ e ih =>
    rw [seen, foldl_append, foldl_cons, if_neg (hk e (by simp))]
    exact ih fun e he => hk e (by simp [he])

/-- A key that no edit so far was about holds what the moves left there. -/
theorem runAll_seen (hcons : Consistent f before) (hkeys : (before.map key).Nodup)
    (hplan : ∀ e ∈ before, e.Planned f) (hrun : runAll before f = some F)
    (hk : k ∉ before.map key) : F k = seen f before k := by
  induction before using List.reverseRecOn generalizing F k with
  | nil =>
    cases hrun
    rfl
  | append_singleton init e ih =>
    rw [runAll_append] at hrun
    obtain ⟨F₁, hinit, he⟩ := Option.bind_eq_some_iff.mp hrun
    obtain ⟨F₂, hstep, hF⟩ := Option.bind_eq_some_iff.mp he
    cases hF
    have hsub : init ⊆ init ++ [e] := subset_append_left _ _
    rw [map_append, nodup_append] at hkeys
    have hIH : ∀ k ∉ init.map key, F₁ k = seen f init k := fun k hk =>
      ih (hcons.sublist hsub) hkeys.1 (fun e he => hplan e (hsub he)) hinit hk
    have hkey : e.key ∉ init.map key := fun hmem => hkeys.2.2 _ hmem _ (by simp) rfl
    rw [map_append, mem_append, not_or] at hk
    have hne : k ≠ e.key := by simpa using hk.2
    obtain ⟨hframe, -, htarget⟩ := run_eq_some hstep
    have hremoved : e.removed ≠ some k := fun h => hne (removed_eq_key h)
    rw [seen, foldl_append, foldl_cons, foldl_nil]
    split
    · next honto =>
      -- the moved value is the initial one: nothing was moved onto a key that is moved away
      obtain ⟨htk, hrk⟩ := target_of_onto honto
      obtain ⟨v, hv, hFk⟩ := htarget k htk hremoved
      have hsource : F₁ e.key = f e.key := by
        rw [hIH e.key hkey, seen_eq_of_not_onto]
        intro e' he' honto'
        exact hcons.target_ne hplan (by simp) (hsub he') hrk (target_of_onto honto').1
      rw [hFk, ← hv, hsource]
    · next honto =>
      have htk : e.target ≠ some k := by
        intro h
        rcases target_eq h with h | h
        · exact hne h
        · exact honto h
      rw [hframe k htk hremoved]
      exact hIH k hk.1

section Keeps

variable (hcons : Consistent f es) (hkeys : (es.map Edit.key).Nodup)
  (hplan : ∀ e ∈ es, e.Planned f) (hsplit : es = before ++ e :: after)
include hcons hkeys hplan hsplit

theorem runAll_before_key (hrun : runAll before f = some F) : F e.key = seen f before e.key := by
  have hsub : before ⊆ es := by
    rw [hsplit]
    exact subset_append_left _ _
  rw [hsplit, map_append, map_cons, nodup_append] at hkeys
  exact runAll_seen (hcons.sublist hsub) hkeys.1 (fun e he => hplan e (hsub he)) hrun
    fun hmem => hkeys.2.2 _ hmem _ mem_cons_self rfl

/-- The run up to an edit, and what the edit finds. -/
theorem runAll_split (hrun : runAll es f = some F') :
    ∃ F F₁, e.run F = some F₁ ∧ runAll after F₁ = some F' ∧ F e.key = seen f before e.key := by
  have hrun' := hrun
  rw [hsplit, runAll_append] at hrun'
  obtain ⟨F, hbefore, hrest⟩ := Option.bind_eq_some_iff.mp hrun'
  obtain ⟨F₁, hstep, hafter⟩ := Option.bind_eq_some_iff.mp hrest
  exact ⟨F, F₁, hstep, hafter, runAll_before_key hcons hkeys hplan hsplit hbefore⟩

/-- The last edit that writes a key decides what is there in the end. -/
theorem runAll_target (hrun : runAll es f = some F') (htarget : e.target = some k)
    (hlast : ∀ e' ∈ after, e'.target ≠ some k) :
    ∃ v, e.actual (seen f before e.key) = some v ∧ F' k = some v := by
  have he : e ∈ es := by simp [hsplit]
  have hafter : ∀ e' ∈ after, e' ∈ es := fun e' he' => by simp [hsplit, he']
  obtain ⟨F, F₁, hstep, hrest, hseen⟩ := runAll_split hcons hkeys hplan hsplit hrun
  have hremoved : ∀ e' ∈ es, e'.removed ≠ some k := fun e' he' h =>
    hcons.target_ne hplan he' he h htarget
  obtain ⟨v, hv, hk⟩ := (run_eq_some hstep).2.2 k htarget (hremoved e he)
  refine ⟨v, hseen ▸ hv, ?_⟩
  rw [runAll_frame hrest fun e' he' => ⟨hlast e' he', hremoved e' (hafter e' he')⟩, hk]

theorem runAll_removed (hrun : runAll es f = some F') (hremoved : e.removed = some k) :
    F' k = none := by
  have he : e ∈ es := by simp [hsplit]
  have hafter : ∀ e' ∈ after, e' ∈ es := fun e' he' => by simp [hsplit, he']
  obtain ⟨F, F₁, hstep, hrest, -⟩ := runAll_split hcons hkeys hplan hsplit hrun
  rw [runAll_frame hrest, (run_eq_some hstep).2.1 k hremoved]
  intro e' he'
  refine ⟨hcons.target_ne hplan he (hafter e' he') hremoved, fun hremoved' => ?_⟩
  -- two edits of one key
  rw [hsplit, map_append, map_cons] at hkeys
  have hne := (nodup_cons.mp hkeys.of_append_right).1
  refine hne (mem_map.mpr ⟨e', he', ?_⟩)
  rw [← removed_eq_key hremoved', removed_eq_key hremoved]

omit hsplit in
theorem runAll_isSome (hlast : LastWord f es) (hsplit : es = before ++ after) :
    ∃ F, runAll before f = some F := by
  induction before using List.reverseRecOn generalizing after with
  | nil => exact ⟨f, rfl⟩
  | append_singleton init e ih =>
    have hsplit' : es = init ++ e :: after := by simpa using hsplit
    have he : e ∈ es := by simp [hsplit']
    obtain ⟨F, hF⟩ := ih hsplit'
    have hkey := runAll_before_key hcons hkeys hplan hsplit' hF
    have hstep : (e.run F).isSome := by
      rw [run_isSome]
      rcases htarget : e.target with - | k
      · -- nothing was moved onto a key that is dropped
        refine .inl ⟨rfl, ?_⟩
        rw [hkey, seen_eq_of_not_onto]
        · exact isSome_of_target_none (hplan e he) htarget
        · intro e' he' honto
          exact hcons.target_ne hplan he (by simp [hsplit', he'])
            (removed_of_target_none htarget) (target_of_onto honto).1
      · obtain ⟨v, hv, -⟩ := hlast init e after hsplit' k htarget
        exact .inr ⟨⟨k, rfl⟩, by rw [hkey, hv]; rfl⟩
    obtain ⟨F₁, hF₁⟩ := Option.isSome_iff_exists.mp hstep
    refine ⟨F₁, ?_⟩
    rw [runAll_append, hF]
    show (e.run F).bind (runAll []) = some F₁
    rw [hF₁]
    rfl

end Keeps

theorem exists_last_target (hk : ∃ e ∈ es, e.target = some k) :
    ∃ before e after, es = before ++ e :: after ∧ e.target = some k ∧
      ∀ e' ∈ after, e'.target ≠ some k := by
  classical
  have hmem : some k ∈ (es.map target).reverse := by simpa using hk
  obtain ⟨later, earlier, hsplit, hlater⟩ := eq_append_cons_of_mem hmem
  have htargets : es.map target = earlier.reverse ++ some k :: later.reverse := by
    rw [← reverse_reverse (es.map _), hsplit]
    simp
  obtain ⟨before, rest, rfl, -, hrest⟩ := map_eq_append_iff.mp htargets
  obtain ⟨e, after, rfl, he, hafter⟩ := map_eq_cons_iff.mp hrest
  refine ⟨before, e, after, rfl, he, fun e' he' htarget => hlater ?_⟩
  rw [← mem_reverse, ← hafter, ← htarget]
  exact mem_map_of_mem he'

/-- **A run keeps the plan's promises exactly when these are consistent and the last edit of each
key gives what was planned.** -/
theorem keeps_iff (hkeys : (es.map key).Nodup) (hplan : ∀ e ∈ es, e.Planned f) :
    (∃ F', runAll es f = some F' ∧ ∀ e ∈ es, ∀ k c, e.Promises f k c → F' k = c) ↔
      Consistent f es ∧ LastWord f es := by
  constructor
  · rintro ⟨F', hrun, hkeeps⟩
    have hcons : Consistent f es := by
      intro e he e' he' k c c' hc hc'
      rw [← hkeeps e he k c hc, ← hkeeps e' he' k c' hc']
    refine ⟨hcons, fun before e after hsplit k htarget => ?_⟩
    have he : e ∈ es := by simp [hsplit]
    by_cases hlater : ∃ e' ∈ after, e'.target = some k
    · obtain ⟨F, F₁, hstep, -, hseen⟩ := runAll_split hcons hkeys hplan hsplit hrun
      obtain ⟨v, hv, -⟩ := (run_eq_some hstep).2.2 k htarget
        fun h => hcons.target_ne hplan he he h htarget
      exact ⟨v, hseen ▸ hv, .inr hlater⟩
    · obtain ⟨v, hv, hk⟩ := runAll_target hcons hkeys hplan hsplit hrun htarget
        fun e' he' h => hlater ⟨e', he', h⟩
      refine ⟨v, hv, .inl ?_⟩
      rw [← hk, hkeeps e he k _ (.inl ⟨htarget, rfl⟩)]
  · rintro ⟨hcons, hlast⟩
    obtain ⟨F', hrun⟩ := runAll_isSome hcons hkeys hplan hlast (append_nil es).symm
    refine ⟨F', hrun, fun e he k c hpromise => ?_⟩
    rcases hpromise with ⟨htarget, rfl⟩ | ⟨hremoved, rfl⟩
    · obtain ⟨before, e', after, hsplit, htarget', hafter⟩ := exists_last_target ⟨e, he, htarget⟩
      obtain ⟨v, hv, hk⟩ := runAll_target hcons hkeys hplan hsplit hrun htarget' hafter
      obtain ⟨v', hv', hplanned⟩ := hlast before e' after hsplit k htarget'
      have hsame : e.planned f = e'.planned f :=
        hcons e he e' (by simp [hsplit]) k _ _ (.inl ⟨htarget, rfl⟩) (.inl ⟨htarget', rfl⟩)
      rcases hplanned with hplanned | ⟨e₂, he₂, h₂⟩
      · rw [hk, hsame, hplanned, ← hv, hv']
      · exact absurd h₂ (hafter e₂ he₂)
    · obtain ⟨before, after, hsplit⟩ := append_of_mem he
      exact runAll_removed hcons hkeys hplan hsplit hrun hremoved

end Scripts

end EditScript

end CodexPlus
