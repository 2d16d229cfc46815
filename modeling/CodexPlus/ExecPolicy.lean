/-
CodexPlus/ExecPolicy.lean

Execution policies (`execpolicy/src/{decision,rule,policy,executable_name}.rs`):
prefix rules keyed by program, the canonical (caseless) rules, host executable
declarations, `merge_overlay` and `matches_for_command_with_options`.

`load_exec_policy` overlays the requirements policy `M` on the policy `U` read from
user and project rules.  Rules only accumulate under `merge_overlay`
(`mem_candidates_mergeOverlay`), but the matches of a command do not: an exact match
suppresses the host executable fallback, and a declaration restricts the paths a
basename rule reaches.  `managed_decision_le_mergeOverlay_iff` says for which `U`,
`M` and command the merged policy is still at least as strict as `M` alone.

A `MultiMap` is its list of pairs in insertion order, the order of each key's vector;
the order in which `iter_all` visits the keys is that of a hash map in the source, and
only decides the order of the matches, never their set.  A `HashMap` is an association
list whose first entry for a key counts.  Unicode canonical caseless folding
(`canonical_key`, from two external crates) is the parameter `canonicalKey`.
-/
import CodexPlus.AbsolutePath
import Mathlib.Data.List.MinMax
import Mathlib.Order.Lattice

namespace CodexPlus

open List

namespace ExecPolicy

open AbsolutePathBuf

/-! ### Decisions and rules -/

/-- `Decision`, weakest first. -/
inductive Decision where
  | allow
  | prompt
  | promptUser
  | forbidden
  deriving DecidableEq

/-- The position of a decision in the derived `Ord` of the source. -/
def Decision.rank : Decision → Nat
  | allow => 0
  | prompt => 1
  | promptUser => 2
  | forbidden => 3

instance : LinearOrder Decision :=
  LinearOrder.lift' Decision.rank (by intro a b; cases a <;> cases b <;> decide)

/-- `PatternToken` -/
inductive PatternToken where
  | single (expected : String)
  | alts (alternatives : List String)
  deriving DecidableEq

def PatternToken.alternatives : PatternToken → List String
  | single expected => [expected]
  | alts alternatives => alternatives

/-- `PrefixPattern` -/
structure PrefixPattern where
  canonicalMatching : Bool
  first : String
  rest : List PatternToken
  deriving DecidableEq

/-- `PrefixRule`, the one implementation of the trait `Rule`. -/
structure PrefixRule where
  pattern : PrefixPattern
  decision : Decision
  justification : Option String
  deriving DecidableEq

/-- `RuleMatch` -/
inductive RuleMatch where
  | prefixRuleMatch (matchedPrefix : List String) (decision : Decision)
      (resolvedProgram : Option AbsolutePathBuf) (justification : Option String)
  | heuristicsRuleMatch (command : List String) (decision : Decision)
  deriving DecidableEq

def RuleMatch.decision : RuleMatch → Decision
  | prefixRuleMatch _ decision _ _ => decision
  | heuristicsRuleMatch _ decision => decision

def RuleMatch.withResolvedProgram (program : AbsolutePathBuf) : RuleMatch → RuleMatch
  | prefixRuleMatch matchedPrefix decision _ justification =>
      prefixRuleMatch matchedPrefix decision (some program) justification
  | other => other

@[simp] theorem RuleMatch.withResolvedProgram_decision (program : AbsolutePathBuf)
    (m : RuleMatch) : (m.withResolvedProgram program).decision = m.decision := by
  cases m <;> rfl

/-- What matching reads outside the policy: the caseless key and the path environment. -/
structure Host where
  canonicalKey : String → String
  env : PathEnv

variable (host : Host)

/-- `PrefixPattern::tokens_equal` -/
def PrefixPattern.tokensEqual (p : PrefixPattern) (a b : String) : Bool :=
  if p.canonicalMatching then host.canonicalKey a = host.canonicalKey b else a = b

/-- `PrefixPattern::matches_prefix` -/
def PrefixPattern.matchesPrefix (p : PrefixPattern) (cmd : List String) :
    Option (List String) :=
  let patternLength := p.rest.length + 1
  match cmd with
  | [] => none
  | first :: args =>
    if cmd.length < patternLength || !p.tokensEqual host first p.first then none
    else if (p.rest.zip args).all fun (patternToken, cmdToken) =>
        patternToken.alternatives.any fun alt => p.tokensEqual host alt cmdToken then
      some (cmd.take patternLength)
    else none

/-- `Rule::program` -/
def PrefixRule.program (r : PrefixRule) : String := r.pattern.first

/-- `Rule::matches` -/
def PrefixRule.matches (r : PrefixRule) (cmd : List String) : Option RuleMatch :=
  (r.pattern.matchesPrefix host cmd).map fun matchedPrefix =>
    .prefixRuleMatch matchedPrefix r.decision none r.justification

/-! ### Policies -/

/-- `NetworkRuleProtocol` -/
inductive NetworkRuleProtocol where
  | http
  | https
  | socks5Tcp
  | socks5Udp
  deriving DecidableEq

/-- `NetworkRule` -/
structure NetworkRule where
  host : String
  protocol : NetworkRuleProtocol
  decision : Decision
  justification : Option String
  deriving DecidableEq

/-- `Policy`.  The index `insensitive_rules` is not stored: every constructor computes it
from `rules_by_program`, and `add_prefix_rule` only adds rules outside it. -/
structure Policy where
  rulesByProgram : List (String × PrefixRule)
  networkRules : List NetworkRule
  hostExecutablesByName : List (String × List AbsolutePathBuf)

/-- `MultiMap::get_vec` (`[]` when there is no entry). -/
def getVec (m : List (String × PrefixRule)) (key : String) : List PrefixRule :=
  (m.filter (·.1 = key)).map (·.2)

namespace Policy

variable (p : Policy)

/-- The index of canonical rules that `from_parts` builds. -/
def insensitiveRules : List (String × PrefixRule) :=
  (p.rulesByProgram.filter (·.2.pattern.canonicalMatching)).map
    fun (program, rule) => (host.canonicalKey program, rule)

/-- The declared paths of a host executable. -/
def hostExecutables (name : String) : Option (List AbsolutePathBuf) :=
  p.hostExecutablesByName.lookup name

/-- `Policy::merge_overlay` -/
def mergeOverlay (overlay : Policy) : Policy where
  rulesByProgram := p.rulesByProgram ++ overlay.rulesByProgram
  networkRules := p.networkRules ++ overlay.networkRules
  hostExecutablesByName := overlay.hostExecutablesByName ++ p.hostExecutablesByName

/-- `Policy::candidates` -/
def candidates (program : String) : List PrefixRule :=
  getVec p.rulesByProgram program ++
    if (p.insensitiveRules host).isEmpty then []
    else (getVec (p.insensitiveRules host) (host.canonicalKey program)).filter
      (·.program ≠ program)

/-- `Policy::match_exact_rules` -/
def matchExactRules (cmd : List String) : Option (List RuleMatch) :=
  cmd.head?.map fun first => (p.candidates host first).filterMap (·.matches host cmd)

/-- `executable_lookup_key` outside Windows -/
def executableLookupKey (raw : String) : String := raw

/-- `executable_path_lookup_key` -/
def executablePathLookupKey (path : AbsolutePathBuf) : Option String :=
  path.fileName.map executableLookupKey

/-- A declaration, if there is one, lists the path. -/
def admitsPath (name : String) (path : AbsolutePathBuf) : Bool :=
  (p.hostExecutables name).all (·.contains path)

/-- `Policy::host_executable_rules` -/
def hostExecutableRules (path : AbsolutePathBuf) : Option (String × List PrefixRule) :=
  match executablePathLookupKey path with
  | none => none
  | some basename =>
    if p.admitsPath basename path then
      -- a canonical rule can carry another name, whose declaration also restricts the path
      some (basename, (p.candidates host basename).filter fun rule =>
        rule.program = basename || p.admitsPath (executableLookupKey rule.program) path)
    else none

/-- `Policy::match_host_executable_rules` -/
def matchHostExecutableRules (cmd : List String) : List RuleMatch :=
  match cmd with
  | [] => []
  | first :: args =>
    match fromAbsolutePath host.env first with
    | none => []
    | some program =>
      match p.hostExecutableRules host program with
      | none => []
      | some (basename, rules) =>
        (rules.filterMap (·.matches host (basename :: args))).map
          (·.withResolvedProgram program)

/-- `Policy::matches_for_command_with_options` -/
def matchesForCommandWithOptions (cmd : List String)
    (heuristicsFallback : Option (List String → Decision))
    (resolveHostExecutables : Bool) : List RuleMatch :=
  let exact := (p.matchExactRules host cmd).getD []
  let matchedRules :=
    if exact ≠ [] then exact
    else if resolveHostExecutables then p.matchHostExecutableRules host cmd
    else []
  match matchedRules, heuristicsFallback with
  | [], some fallback => [.heuristicsRuleMatch cmd (fallback cmd)]
  | matched, _ => matched

end Policy

/-- The decision of `Evaluation::from_matches`: the strictest of the matches. -/
def strictest (matched : List RuleMatch) : Option Decision :=
  (matched.map RuleMatch.decision).max?

/-- The strictest of `matched` is at least as strict as the strictest of `reference`. -/
def atLeastAsStrict (matched reference : List RuleMatch) : Bool :=
  match strictest reference, strictest matched with
  | none, _ => true
  | some d, some e => d ≤ e
  | some _, none => false

/-! ### What a merge does to the candidates and to the declarations -/

section Merge

variable {host} {U M : Policy} {r : PrefixRule} {m : RuleMatch} {cmd : List String}

theorem mem_getVec {rules : List (String × PrefixRule)} {key : String} :
    r ∈ getVec rules key ↔ (key, r) ∈ rules := by
  simp [getVec]

namespace Policy

variable {p : Policy}

theorem mem_insensitiveRules {key : String} :
    (key, r) ∈ p.insensitiveRules host ↔
      ∃ program, (program, r) ∈ p.rulesByProgram ∧ r.pattern.canonicalMatching ∧
        host.canonicalKey program = key := by
  simp only [insensitiveRules, mem_map, mem_filter, Prod.exists, Prod.mk.injEq]
  constructor
  · rintro ⟨program, rule, ⟨hmem, hcanon⟩, hkey, rfl⟩
    exact ⟨program, hmem, hcanon, hkey⟩
  · rintro ⟨program, hmem, hcanon, hkey⟩
    exact ⟨program, r, ⟨hmem, hcanon⟩, hkey, rfl⟩

theorem mem_candidates {program : String} :
    r ∈ p.candidates host program ↔
      (program, r) ∈ p.rulesByProgram ∨
        ((host.canonicalKey program, r) ∈ p.insensitiveRules host ∧ r.program ≠ program) := by
  unfold candidates
  rw [mem_append, mem_getVec]
  split
  · rename_i hempty
    rw [List.isEmpty_iff.mp hempty]
    simp
  · simp [mem_getVec]

/-- The rules of both policies are candidates of the merged one, and no others. -/
theorem mem_candidates_mergeOverlay {program : String} :
    r ∈ (U.mergeOverlay M).candidates host program ↔
      r ∈ U.candidates host program ∨ r ∈ M.candidates host program := by
  simp only [mem_candidates, mem_insensitiveRules, mergeOverlay, mem_append]
  grind

/-- The overlay's declaration of a name replaces the base policy's. -/
theorem hostExecutables_mergeOverlay (name : String) :
    (U.mergeOverlay M).hostExecutables name
      = (M.hostExecutables name).or (U.hostExecutables name) := by
  simp [hostExecutables, mergeOverlay, lookup_append]

/-- Every declaration that is in force for `name` after the merge lists `path`. -/
def overlayAdmitsPath (U M : Policy) (name : String) (path : AbsolutePathBuf) : Bool :=
  if (M.hostExecutables name).isSome then M.admitsPath name path else U.admitsPath name path

theorem admitsPath_mergeOverlay (name : String) (path : AbsolutePathBuf) :
    (U.mergeOverlay M).admitsPath name path = overlayAdmitsPath U M name path := by
  unfold overlayAdmitsPath admitsPath
  rw [hostExecutables_mergeOverlay]
  cases M.hostExecutables name <;> simp

/-! ### Matches of a merged policy -/

/-- The matches of `match_exact_rules`, `[]` for an empty command. -/
def exactMatches (host : Host) (p : Policy) (cmd : List String) : List RuleMatch :=
  (p.matchExactRules host cmd).getD []

theorem mem_exactMatches_mergeOverlay :
    m ∈ (U.mergeOverlay M).exactMatches host cmd ↔
      m ∈ U.exactMatches host cmd ∨ m ∈ M.exactMatches host cmd := by
  cases cmd with
  | nil => simp [exactMatches, matchExactRules]
  | cons =>
    simp only [exactMatches, matchExactRules, head?_cons, Option.map_some,
      Option.getD_some, mem_filterMap, mem_candidates_mergeOverlay]
    grind

theorem exactMatches_mergeOverlay_eq_nil :
    (U.mergeOverlay M).exactMatches host cmd = [] ↔
      U.exactMatches host cmd = [] ∧ M.exactMatches host cmd = [] := by
  simp only [eq_nil_iff_forall_not_mem, mem_exactMatches_mergeOverlay]
  grind

theorem mem_matchHostExecutableRules_iff :
    m ∈ p.matchHostExecutableRules host cmd ↔
      ∃ first args program basename rules rule found, cmd = first :: args ∧
        fromAbsolutePath host.env first = some program ∧
        p.hostExecutableRules host program = some (basename, rules) ∧ rule ∈ rules ∧
        rule.matches host (basename :: args) = some found ∧ m = found.withResolvedProgram program := by
  constructor
  · intro hm
    rcases cmd with _ | ⟨first, args⟩
    · cases hm
    rcases hprogram : fromAbsolutePath host.env first with _ | program
    · simp only [matchHostExecutableRules, hprogram, not_mem_nil] at hm
    rcases hrules : p.hostExecutableRules host program with _ | ⟨basename, rules⟩
    · simp only [matchHostExecutableRules, hprogram, hrules, not_mem_nil] at hm
    simp only [matchHostExecutableRules, hprogram, hrules, mem_map, mem_filterMap] at hm
    obtain ⟨found, ⟨rule, hrule, hfound⟩, rfl⟩ := hm
    exact ⟨first, args, program, basename, rules, rule, found, rfl, hprogram, hrules, hrule, hfound, rfl⟩
  · rintro ⟨first, args, program, basename, rules, rule, found, rfl, hprogram, hrules, hrule, hfound, rfl⟩
    simp only [matchHostExecutableRules, hprogram, hrules, mem_map, mem_filterMap]
    exact ⟨found, ⟨rule, hrule, hfound⟩, rfl⟩

theorem hostExecutableRules_eq_some {program : AbsolutePathBuf} {basename : String}
    {rules : List PrefixRule} :
    p.hostExecutableRules host program = some (basename, rules) ↔
      executablePathLookupKey program = some basename ∧ p.admitsPath basename program ∧
        (p.candidates host basename).filter (fun rule => rule.program = basename ||
          p.admitsPath (executableLookupKey rule.program) program) = rules := by
  rw [hostExecutableRules]
  rcases executablePathLookupKey program with - | name
  · simp
  by_cases hadmits : p.admitsPath name program
  · simp only [hadmits, if_true, Option.some.injEq, Prod.mk.injEq]
    constructor
    · rintro ⟨rfl, rfl⟩
      exact ⟨rfl, hadmits, rfl⟩
    · rintro ⟨rfl, -, rfl⟩
      exact ⟨rfl, rfl⟩
  · simp only [hadmits]
    refine iff_of_false nofun ?_
    rintro ⟨hname, hadmits', -⟩
    exact hadmits (Option.some.inj hname ▸ hadmits')

/-- A host executable match, spelled out: the command's first token names a path, the
path's basename has a matching candidate, and no declaration keeps the path from it. -/
theorem mem_matchHostExecutableRules :
    m ∈ p.matchHostExecutableRules host cmd ↔
      ∃ first args program basename rule found, cmd = first :: args ∧
        fromAbsolutePath host.env first = some program ∧
        executablePathLookupKey program = some basename ∧
        p.admitsPath basename program ∧ rule ∈ p.candidates host basename ∧
        (rule.program = basename ∨ p.admitsPath (executableLookupKey rule.program) program) ∧
        rule.matches host (basename :: args) = some found ∧
        m = found.withResolvedProgram program := by
  simp only [mem_matchHostExecutableRules_iff, hostExecutableRules_eq_some]
  constructor
  · rintro ⟨first, args, program, basename, _, rule, found, hcmd, hp, ⟨hb, ha, rfl⟩, hr, hf⟩
    rw [mem_filter, Bool.or_eq_true, decide_eq_true_eq] at hr
    exact ⟨first, args, program, basename, rule, found, hcmd, hp, hb, ha, hr.1, hr.2, hf⟩
  · rintro ⟨first, args, program, basename, rule, found, hcmd, hp, hb, ha, hr, hadm, hf⟩
    refine ⟨first, args, program, basename, _, rule, found, hcmd, hp, ⟨hb, ha, rfl⟩, ?_, hf⟩
    rw [mem_filter, Bool.or_eq_true, decide_eq_true_eq]
    exact ⟨hr, hadm⟩

theorem matchesForCommandWithOptions_eq (p : Policy) (resolve : Bool) :
    p.matchesForCommandWithOptions host cmd none resolve =
      if p.exactMatches host cmd ≠ [] then p.exactMatches host cmd
      else if resolve then p.matchHostExecutableRules host cmd else [] := by
  unfold matchesForCommandWithOptions exactMatches
  simp

end Policy

/-! ### When the managed rules still decide -/

variable {matched : List RuleMatch}

theorem strictest_eq_some {d : Decision} :
    strictest matched = some d ↔
      (∃ m ∈ matched, m.decision = d) ∧ ∀ m ∈ matched, m.decision ≤ d := by
  simp [strictest, max?_eq_some_iff]

theorem strictest_eq_none : strictest matched = none ↔ matched = [] := by
  simp [strictest]

variable {reference : List RuleMatch}

/-- The strictest of some matches, among more of them. -/
theorem exists_strictest (hne : reference ≠ []) (hsub : ∀ m ∈ reference, m ∈ matched) :
    ∃ m ∈ matched, ∀ r ∈ reference, r.decision ≤ m.decision := by
  rcases hs : strictest reference with _ | d
  · exact absurd (strictest_eq_none.mp hs) hne
  · obtain ⟨⟨m, hm, rfl⟩, hmax⟩ := strictest_eq_some.mp hs
    exact ⟨m, hsub m hm, hmax⟩

/-- With something to compare to, one match has to be as strict as every reference match. -/
theorem atLeastAsStrict_iff (href : reference ≠ []) :
    atLeastAsStrict matched reference ↔
      ∃ m ∈ matched, ∀ r ∈ reference, r.decision ≤ m.decision := by
  rcases hr : strictest reference with - | d
  · exact absurd (strictest_eq_none.mp hr) href
  obtain ⟨⟨r₀, hr₀, hr₀d⟩, hrmax⟩ := strictest_eq_some.mp hr
  rcases hm : strictest matched with - | e
  · obtain rfl := strictest_eq_none.mp hm
    simp [atLeastAsStrict, hr, hm]
  obtain ⟨⟨m₀, hm₀, hm₀e⟩, hmmax⟩ := strictest_eq_some.mp hm
  simp only [atLeastAsStrict, hr, hm, decide_eq_true_eq]
  constructor
  · intro hde
    exact ⟨m₀, hm₀, fun r hrm => (hrmax r hrm).trans (hm₀e ▸ hde)⟩
  · rintro ⟨m, hmm, hle⟩
    calc d = r₀.decision := hr₀d.symm
      _ ≤ m.decision := hle r₀ hr₀
      _ ≤ e := hmmax m hmm

/-- **When overlaying `M` on `U` keeps `M`'s decision on a command.**  Either `M` has a rule
for the first token as it is written, or `M` only reaches the command through its basename;
then the user rules for the token as written, which replace all basename rules, must hold
one that is strict enough, and where there is none the path must be listed by the
declarations in force after the merge (`M`'s for a name if it has one, else `U`'s). -/
inductive KeepsManagedDecision (host : Host) (U M : Policy) (cmd : List String) : Prop
  | managedExact (h : M.exactMatches host cmd ≠ [])
  | userExact (m : RuleMatch) (hm : m ∈ U.exactMatches host cmd)
      (hle : ∀ d ∈ M.matchHostExecutableRules host cmd, d.decision ≤ m.decision)
  | basename (hU : U.exactMatches host cmd = []) (first : String) (args : List String)
      (program : AbsolutePathBuf) (basename : String) (rule : PrefixRule) (found : RuleMatch)
      (hcmd : cmd = first :: args)
      (hprogram : fromAbsolutePath host.env first = some program)
      (hbasename : Policy.executablePathLookupKey program = some basename)
      (hadmits : Policy.overlayAdmitsPath U M basename program)
      (hrule : rule ∈ U.candidates host basename ∨ rule ∈ M.candidates host basename)
      (hruleAdmits : rule.program = basename ∨
        Policy.overlayAdmitsPath U M (Policy.executableLookupKey rule.program) program)
      (hfound : rule.matches host (basename :: args) = some found)
      (hle : ∀ d ∈ M.matchHostExecutableRules host cmd, d.decision ≤ found.decision)

open Policy

/-- **Managed command rules hold exactly under `KeepsManagedDecision`.** -/
theorem managed_decision_le_mergeOverlay_iff (host : Host) (U M : Policy) (cmd : List String)
    (hM : M.matchesForCommandWithOptions host cmd none true ≠ []) :
    atLeastAsStrict ((U.mergeOverlay M).matchesForCommandWithOptions host cmd none true)
        (M.matchesForCommandWithOptions host cmd none true) ↔
      KeepsManagedDecision host U M cmd := by
  rw [atLeastAsStrict_iff hM]
  by_cases hME : M.exactMatches host cmd = []
  · -- `M` reaches the command through its basename only
    simp only [matchesForCommandWithOptions_eq, ↓reduceIte]
    rw [if_neg (not_not.mpr hME)]
    by_cases hUE : U.exactMatches host cmd = []
    · rw [if_neg (not_not.mpr (exactMatches_mergeOverlay_eq_nil.mpr ⟨hUE, hME⟩))]
      constructor
      · rintro ⟨m, hm, hle⟩
        obtain ⟨first, args, program, basename, rule, found, hcmd, hp, hb, ha, hr, hadm, hf, rfl⟩ :=
          mem_matchHostExecutableRules.mp hm
        rw [admitsPath_mergeOverlay] at ha hadm
        exact .basename hUE first args program basename rule found hcmd hp hb ha
          (mem_candidates_mergeOverlay.mp hr) hadm hf (by simpa using hle)
      · intro h
        rcases h with h | ⟨m, hm, -⟩ |
          ⟨-, first, args, program, basename, rule, found, hcmd, hp, hb, ha, hr, hadm, hf, hle⟩
        · exact absurd hME h
        · simp [hUE] at hm
        · rw [← admitsPath_mergeOverlay] at ha hadm
          exact ⟨found.withResolvedProgram program, mem_matchHostExecutableRules.mpr
            ⟨first, args, program, basename, rule, found, hcmd, hp, hb, ha,
              mem_candidates_mergeOverlay.mpr hr, hadm, hf, rfl⟩, by simpa using hle⟩
    · -- the user rules for the written token are all that is left
      have hP : (U.mergeOverlay M).exactMatches host cmd ≠ [] := fun h =>
        hUE (exactMatches_mergeOverlay_eq_nil.mp h).1
      rw [if_pos hP]
      constructor
      · rintro ⟨m, hm, hle⟩
        rcases mem_exactMatches_mergeOverlay.mp hm with hm | hm
        · exact .userExact m hm hle
        · simp [hME] at hm
      · intro h
        rcases h with h | ⟨m, hm, hle⟩ | ⟨hU, _⟩
        · exact absurd hME h
        · exact ⟨m, mem_exactMatches_mergeOverlay.mpr (.inl hm), hle⟩
        · exact absurd hU hUE
  · -- every exact match of `M` is one of the merged policy
    refine iff_of_true ?_ (.managedExact hME)
    have hP : (U.mergeOverlay M).exactMatches host cmd ≠ [] := fun h =>
      hME (exactMatches_mergeOverlay_eq_nil.mp h).2
    rw [matchesForCommandWithOptions_eq, matchesForCommandWithOptions_eq,
      if_pos hME, if_pos hP]
    exact exists_strictest hME fun m hm => mem_exactMatches_mergeOverlay.mpr (.inr hm)

/-- **Without host executables managed rules always hold**: a merge keeps all their matches. -/
theorem managed_decision_le_without_resolution (host : Host) (U M : Policy) (cmd : List String) :
    atLeastAsStrict ((U.mergeOverlay M).matchesForCommandWithOptions host cmd none false)
      (M.matchesForCommandWithOptions host cmd none false) := by
  have hexact (p : Policy) :
      p.matchesForCommandWithOptions host cmd none false = p.exactMatches host cmd := by
    simp [matchesForCommandWithOptions_eq]
  rw [hexact, hexact]
  rcases eq_or_ne (M.exactMatches host cmd) [] with hnil | hne
  · rw [hnil]
    rfl
  · exact (atLeastAsStrict_iff hne).mpr
      (exists_strictest hne fun m hm => mem_exactMatches_mergeOverlay.mpr (.inr hm))

end Merge

/-! ### Two runs -/

/-- A rule for a program with any arguments. -/
def programRule (program : String) (decision : Decision) : String × PrefixRule :=
  (program, ⟨⟨false, program, []⟩, decision, none⟩)

/-- A host with ASCII case folding, no home directory and no working directory. -/
def asciiHost : Host where
  canonicalKey s := String.ofList (s.toList.map Char.toLower)
  env := ⟨none, none⟩

/-- A managed rule that forbids `rm` holds for `/usr/bin/rm` against a user rule on `rm`. -/
theorem managed_decision_holds_for_user_basename_rule :
    let U : Policy := ⟨[programRule "rm" .allow], [], []⟩
    let M : Policy := ⟨[programRule "rm" .forbidden], [], []⟩
    let cmd := ["/usr/bin/rm", "-rf"]
    atLeastAsStrict ((U.mergeOverlay M).matchesForCommandWithOptions asciiHost cmd none true)
      (M.matchesForCommandWithOptions asciiHost cmd none true) :=
  (managed_decision_le_mergeOverlay_iff asciiHost _ _ _ (by decide)).mpr
    (.basename (by decide) "/usr/bin/rm" ["-rf"] ⟨["usr", "bin", "rm"], by decide⟩ "rm"
      (programRule "rm" .forbidden).2 (.prefixRuleMatch ["rm"] .forbidden none none)
      rfl (by decide) (by decide) (by decide) (by decide) (by decide) (by decide) (by decide))

/-- A user rule that allows `/usr/bin/rm` suppresses the managed rule that forbids `rm`. -/
theorem user_path_rule_suppresses_managed_rule :
    let U : Policy := ⟨[programRule "/usr/bin/rm" .allow], [], []⟩
    let M : Policy := ⟨[programRule "rm" .forbidden], [], []⟩
    let cmd := ["/usr/bin/rm", "-rf"]
    strictest (M.matchesForCommandWithOptions asciiHost cmd none true) = some .forbidden ∧
    strictest ((U.mergeOverlay M).matchesForCommandWithOptions asciiHost cmd none true)
      = some .allow ∧
    ¬ atLeastAsStrict ((U.mergeOverlay M).matchesForCommandWithOptions asciiHost cmd none true)
      (M.matchesForCommandWithOptions asciiHost cmd none true) := by
  decide

end ExecPolicy

end CodexPlus
