/-
CodexPlus/ManagedSnapshot.lean

Transported policy snapshots: `preserves_managed_requirements` of
execpolicy/src/policy.rs.

A snapshot `P` that passes the check contains every rule of the requirements `R`, so
it can only be weaker where an exact rule of `P` for a path suppresses the rules `R`
has for the path's basename.  The check then compares the exact rule with each such
fallback: the exact rule is as strict, the two have no command in common, or another
rule for the path covers all commands they share (`can_weaken_fallback`).

Covering is decided on spellings of the arguments (`overlap_at`).  For a fallback that
matches caseless, an exact spelling is taken to cover a token of ASCII characters
without letters.  Under the Unicode key such a token can have another spelling: the
Greek question mark U+037E has the key of `;`.  `snapshot_keeps_managed_iff` says that
this is the one way in which a snapshot weakens a managed decision.
-/
import CodexPlus.CaselessKey
import CodexPlus.Entries
import CodexPlus.ExecPolicy

namespace CodexPlus

open List

namespace ExecPolicy

open AbsolutePathBuf

variable (host : Host)

/-! ### The check -/

/-- `str::is_ascii` -/
def isAscii (s : String) : Bool := s.toList.all (·.toNat < 128)

/-- The tokens for which an exact spelling is taken to prove coverage of a folded overlap. -/
def isPlain (s : String) : Bool := isAscii s && ! s.toList.any Char.isAlpha

/-- `overlap_at`: the spellings that both rules accept as argument `i`, and whether they are
folded. -/
def overlapAt (exact fallback : PrefixPattern) (i : ℕ) : List (String × Bool) :=
  let (source, filter) :=
    if i ≥ exact.rest.length ||
        (i < fallback.rest.length && exact.canonicalMatching && ! fallback.canonicalMatching) then
      (fallback, exact)
    else (exact, fallback)
  let alternatives := (source.rest[i]?.map PatternToken.alternatives).getD []
  alternatives.filterMap fun arg =>
    let accepted := filter.rest[i]?.all fun token =>
      token.alternatives.any fun alt => filter.tokensEqual host alt arg
    if accepted then some (arg, source.canonicalMatching) else none

/-- `can_weaken_fallback` -/
def canWeakenFallback (exact fallback : PrefixRule) (pathRules : List PrefixRule) : Bool :=
  if exact.decision ≥ fallback.decision then false
  else
    let length := max exact.pattern.rest.length fallback.pattern.rest.length
    if (List.range length).any fun i => (overlapAt host exact.pattern fallback.pattern i).isEmpty then
      false
    else
      -- a protecting exact rule must cover every spelling in the overlap
      ! pathRules.any fun rule =>
        rule.decision ≥ fallback.decision &&
        (! exact.pattern.canonicalMatching || rule.pattern.canonicalMatching) &&
        rule.pattern.rest.length ≤ length &&
        rule.pattern.rest.zipIdx.all fun (token, i) =>
          (overlapAt host exact.pattern fallback.pattern i).all fun (arg, insensitive) =>
            let needsFold := insensitive && ! isPlain arg
            (! needsFold || rule.pattern.canonicalMatching) &&
              token.alternatives.any fun alt => rule.pattern.tokensEqual host alt arg

/-- `upsert_domain` -/
def upsertDomain (entries : List String) (domain : String) : List String :=
  entries.filter (· ≠ domain) ++ [domain]

namespace Policy

variable (p : Policy)

/-- `Policy::compiled_network_domains`: the allowed and the denied hosts. -/
def compiledNetworkDomains : List String × List String :=
  p.networkRules.foldl (fun (allowed, denied) rule =>
    match rule.decision with
    | .allow => (upsertDomain allowed rule.host, denied.filter (· ≠ rule.host))
    | .forbidden => (allowed.filter (· ≠ rule.host), upsertDomain denied rule.host)
    | .prompt | .promptUser => (allowed, denied)) ([], [])

/-- `Policy::contains_prefix_rule` -/
def containsPrefixRule (program : String) (rule : PrefixRule) : Bool :=
  (getVec p.rulesByProgram program).contains rule

/-- The keys of the rules. -/
def programs : List String := p.rulesByProgram.map (·.1)

/-- Equality of `host_executables` as maps. -/
def sameHostExecutables (q : Policy) : Bool :=
  ((p.hostExecutablesByName ++ q.hostExecutablesByName).map (·.1)).all fun name =>
    p.hostExecutables name = q.hostExecutables name

/-- A canonical rule at a path weakens a managed rule for a spelling of its basename. -/
def weakensSpelling (managed : Policy) (program : String) (path : AbsolutePathBuf) : Bool :=
  let rules := getVec p.rulesByProgram program
  rules.any (·.pattern.canonicalMatching) &&
    match executablePathLookupKey path with
    | none => false
    | some name => managed.programs.any fun managedProgram =>
      host.canonicalKey managedProgram = host.canonicalKey name &&
        (rules.filter fun rule => rule.pattern.canonicalMatching &&
          ! managed.containsPrefixRule rule.program rule).any fun rule =>
            (getVec managed.rulesByProgram managedProgram).any fun fallback =>
              canWeakenFallback host rule fallback rules

/-- A rule at a path weakens a managed rule that the path reaches through its basename. -/
def weakensPath (managed : Policy) (program : String) (path : AbsolutePathBuf) : Bool :=
  let rules := getVec p.rulesByProgram program
  match managed.hostExecutableRules host path with
  | none => false
  | some (_, fallbackRules) => rules.any fun rule =>
    ! managed.containsPrefixRule program rule &&
      fallbackRules.any fun fallback => canWeakenFallback host rule fallback rules

/-- `Policy::preserves_managed_requirements` -/
def preservesManagedRequirements (managed : Policy) : Bool :=
  p.sameHostExecutables managed &&
  managed.rulesByProgram.all (fun (program, rule) => p.containsPrefixRule program rule) &&
  p.programs.all (fun program =>
    match fromAbsolutePath host.env program with
    | none => true
    | some path =>
      ! p.weakensSpelling host managed program path && ! p.weakensPath host managed program path) &&
  managed.compiledNetworkDomains.2.all fun domain => p.compiledNetworkDomains.2.contains domain

end Policy

/-! ### Which commands a rule matches -/

section

variable {host} {args : List String}

/-- A pattern accepts the arguments after the program. -/
def PrefixPattern.ArgsMatch (host : Host) (p : PrefixPattern) (args : List String) : Prop :=
  p.rest.length ≤ args.length ∧ ∀ (i : ℕ) (token : PatternToken) (given : String),
    p.rest[i]? = some token → args[i]? = some given →
    ∃ alt ∈ token.alternatives, p.tokensEqual host alt given = true

theorem PrefixPattern.tokensEqual_self (p : PrefixPattern) (s : String) :
    p.tokensEqual host s s := by
  rw [tokensEqual]
  split <;> simp

theorem PrefixPattern.tokensEqual_iff {p : PrefixPattern} {a b : String} :
    p.tokensEqual host a b ↔
      host.canonicalKey a = host.canonicalKey b ∧ (p.canonicalMatching = false → a = b) := by
  rw [tokensEqual]
  cases p.canonicalMatching with
  | true => simp
  | false =>
    simp only [Bool.false_eq_true, if_false, decide_eq_true_eq, forall_const]
    constructor
    · rintro rfl
      exact ⟨rfl, rfl⟩
    · exact And.right

variable {r : PrefixRule} {first : String}

theorem PrefixRule.matches_iff :
    (∃ m, r.matches host (first :: args) = some m) ↔
      r.pattern.tokensEqual host first r.pattern.first ∧ r.pattern.ArgsMatch host args := by
  have hzip : ((r.pattern.rest.zip args).all fun pair =>
      pair.1.alternatives.any fun alt => r.pattern.tokensEqual host alt pair.2) = true ↔
      ∀ (i : ℕ) (token : PatternToken) (given : String),
        r.pattern.rest[i]? = some token → args[i]? = some given →
        ∃ alt ∈ token.alternatives, r.pattern.tokensEqual host alt given = true := by
    rw [all_eq_true]
    constructor
    · intro h i token given htoken hgiven
      have hpair := h (token, given) (mem_iff_getElem?.mpr
        ⟨i, getElem?_zip_eq_some.mpr ⟨htoken, hgiven⟩⟩)
      exact any_eq_true.mp hpair
    · rintro h ⟨token, given⟩ hpair
      obtain ⟨i, hi⟩ := mem_iff_getElem?.mp hpair
      obtain ⟨htoken, hgiven⟩ := getElem?_zip_eq_some.mp hi
      exact any_eq_true.mpr (h i token given htoken hgiven)
  rw [PrefixRule.matches, PrefixPattern.matchesPrefix]
  by_cases hshort : (first :: args).length < r.pattern.rest.length + 1
  · have hargs : ¬ r.pattern.rest.length ≤ args.length := by
      rw [length_cons] at hshort
      omega
    simp [PrefixPattern.ArgsMatch, hargs]
  · have hargs : r.pattern.rest.length ≤ args.length := by
      rw [length_cons] at hshort
      omega
    rw [PrefixPattern.ArgsMatch, ← hzip]
    cases r.pattern.tokensEqual host first r.pattern.first with
    | false => simp
    | true =>
      simp only [hshort, hargs, decide_false, Bool.not_true, Bool.or_false, Bool.false_eq_true, if_false,
        true_and]
      split
      · next hall => simp [hall]
      · next hall => simp [hall]

variable {m : RuleMatch}

theorem PrefixRule.decision_of_matches {cmd : List String}
    (h : r.matches host cmd = some m) : m.decision = r.decision := by
  obtain ⟨_, -, rfl⟩ := Option.map_eq_some_iff.mp h
  rfl

/-! ### Covered overlaps -/

/-- An argument of the command is another spelling of a plain token of the pattern. -/
def PrefixPattern.Respelled (host : Host) (p : PrefixPattern) (args : List String) : Prop :=
  ∃ (i : ℕ) (token : PatternToken) (plain given : String), p.rest[i]? = some token ∧ plain ∈ token.alternatives ∧ isPlain plain = true ∧
    args[i]? = some given ∧ host.canonicalKey plain = host.canonicalKey given ∧ plain ≠ given

/-- A spelling from one pattern that the other accepts too. -/
theorem exists_mem_filterMap {source filter : PrefixPattern} {i : ℕ} {given : String}
    (hsource : source.ArgsMatch host args) (hfilter : filter.ArgsMatch host args)
    (hgiven : args[i]? = some given) (hi : i < source.rest.length)
    (hcase : source.canonicalMatching → filter.canonicalMatching ∨ filter.rest.length ≤ i) :
    ∃ (token : PatternToken) (arg : String), source.rest[i]? = some token ∧ arg ∈ token.alternatives ∧
      host.canonicalKey arg = host.canonicalKey given ∧
      (source.canonicalMatching = false → arg = given) ∧
      (arg, source.canonicalMatching) ∈ ((source.rest[i]?.map PatternToken.alternatives).getD []).filterMap
        fun arg => if filter.rest[i]?.all (fun token =>
            token.alternatives.any fun alt => filter.tokensEqual host alt arg) then
          some (arg, source.canonicalMatching) else none := by
  have htoken := getElem?_eq_getElem hi
  obtain ⟨arg, harg, hequal⟩ := hsource.2 i _ given htoken hgiven
  obtain ⟨hkey, hplain⟩ := PrefixPattern.tokensEqual_iff.mp hequal
  refine ⟨source.rest[i], arg, htoken, harg, hkey, hplain, ?_⟩
  rw [htoken]
  refine mem_filterMap.mpr ⟨arg, harg, ?_⟩
  rw [if_pos]
  rcases hother : filter.rest[i]? with _ | token
  · rfl
  rw [Option.all_some, any_eq_true]
  obtain ⟨alt, halt, hmatch⟩ := hfilter.2 i token given hother hgiven
  obtain ⟨hkey', hplain'⟩ := PrefixPattern.tokensEqual_iff.mp hmatch
  refine ⟨alt, halt, PrefixPattern.tokensEqual_iff.mpr ⟨hkey'.trans hkey.symm, fun hsensitive => ?_⟩⟩
  rcases hsource : source.canonicalMatching with _ | _
  · rw [hplain' hsensitive, hplain hsource]
  rcases hcase hsource with hfold | hshort
  · rw [hfold] at hsensitive
    cases hsensitive
  · rw [getElem?_eq_none hshort] at hother
    cases hother

/-- Arguments that both patterns accept are spelled in the overlap; where they are spelled by a
folded token of the fallback alone, it is one of its alternatives. -/
theorem exists_mem_overlapAt {exact fallback : PrefixPattern} (hexact : exact.ArgsMatch host args)
    (hfallback : fallback.ArgsMatch host args) {i : ℕ}
    (hi : i < max exact.rest.length fallback.rest.length) :
    ∃ given arg insensitive, args[i]? = some given ∧
      (arg, insensitive) ∈ overlapAt host exact fallback i ∧
      host.canonicalKey arg = host.canonicalKey given ∧
      (insensitive = false → arg = given) ∧
      (insensitive → exact.canonicalMatching ∨ fallback.canonicalMatching ∧
        ∃ token : PatternToken, fallback.rest[i]? = some token ∧ arg ∈ token.alternatives) := by
  have hlength : i < args.length :=
    lt_of_lt_of_le hi (max_le hexact.1 hfallback.1)
  have hgiven := getElem?_eq_getElem hlength
  by_cases hchoice : (i ≥ exact.rest.length ||
      (i < fallback.rest.length && exact.canonicalMatching && ! fallback.canonicalMatching)) = true
  · -- the spelling comes from the fallback
    have hlt : i < fallback.rest.length := by
      simp only [Bool.or_eq_true, decide_eq_true_eq, Bool.and_eq_true] at hchoice
      omega
    have hcase : fallback.canonicalMatching = true →
        exact.canonicalMatching = true ∨ exact.rest.length ≤ i := by
      intro hfold
      rw [hfold] at hchoice
      simp only [Bool.not_true, Bool.and_false, Bool.or_false, decide_eq_true_eq] at hchoice
      exact .inr hchoice
    obtain ⟨token, arg, htoken, harg, hkey, hplain, hmem⟩ :=
      exists_mem_filterMap hfallback hexact hgiven hlt hcase
    refine ⟨args[i], arg, fallback.canonicalMatching, hgiven, ?_, hkey, hplain,
      fun hfold => .inr ⟨hfold, token, htoken, harg⟩⟩
    rw [overlapAt, hchoice]
    exact hmem
  · rw [Bool.not_eq_true] at hchoice
    have hlt : i < exact.rest.length := by
      simp only [Bool.or_eq_false_iff, decide_eq_false_iff_not] at hchoice
      omega
    have hcase : exact.canonicalMatching = true →
        fallback.canonicalMatching = true ∨ fallback.rest.length ≤ i := by
      intro hfold
      rw [hfold] at hchoice
      simp only [Bool.or_eq_false_iff, Bool.and_true, Bool.and_eq_false_iff, decide_eq_false_iff_not,
        Bool.not_eq_false'] at hchoice
      rcases hchoice.2 with hshort | hsame
      · exact .inr (not_lt.mp hshort)
      · exact .inl hsame
    obtain ⟨token, arg, htoken, harg, hkey, hplain, hmem⟩ :=
      exists_mem_filterMap hexact hfallback hgiven hlt hcase
    refine ⟨args[i], arg, exact.canonicalMatching, hgiven, ?_, hkey, hplain, fun hfold => .inl hfold⟩
    rw [overlapAt, hchoice]
    exact hmem

/-- **What the check of a pair of rules gives for a command both match.**  The exact rule is as
strict, or a rule for the path is and accepts the arguments, unless one of them is respelled. -/
theorem of_not_canWeakenFallback {exact fallback : PrefixRule} {rules : List PrefixRule}
    (h : canWeakenFallback host exact fallback rules = false)
    (hexact : exact.pattern.ArgsMatch host args) (hfallback : fallback.pattern.ArgsMatch host args) :
    fallback.decision ≤ exact.decision ∨ ∃ rule ∈ rules, fallback.decision ≤ rule.decision ∧
      (exact.pattern.canonicalMatching → rule.pattern.canonicalMatching) ∧
      (rule.pattern.ArgsMatch host args ∨ rule.pattern.canonicalMatching = false ∧
        fallback.pattern.canonicalMatching ∧ fallback.pattern.Respelled host args) := by
  rw [canWeakenFallback] at h
  by_cases hstrict : exact.decision ≥ fallback.decision
  · exact .inl hstrict
  rw [if_neg hstrict] at h
  have hoverlap : ((List.range (max exact.pattern.rest.length fallback.pattern.rest.length)).any
      fun i => (overlapAt host exact.pattern fallback.pattern i).isEmpty) = false := by
    rw [any_eq_false]
    intro i hi hempty
    obtain ⟨_, _, _, -, hmem, -⟩ := exists_mem_overlapAt hexact hfallback (mem_range.mp hi)
    rw [List.isEmpty_iff.mp hempty] at hmem
    cases hmem
  simp only [hoverlap, Bool.false_eq_true, if_false, Bool.not_eq_false', any_eq_true,
    Bool.and_eq_true, decide_eq_true_eq, Bool.or_eq_true, Bool.not_eq_true'] at h
  obtain ⟨rule, hrule, ⟨⟨hdecision, hfold⟩, hlength⟩, hcover⟩ := h
  have hcanonical : exact.pattern.canonicalMatching = true → rule.pattern.canonicalMatching = true := by
    intro hexactFold
    rcases hfold with hfold | hfold
    · rw [hexactFold] at hfold
      cases hfold
    · exact hfold
  refine .inr ⟨rule, hrule, hdecision, hcanonical, ?_⟩
  by_cases hrespelled : rule.pattern.canonicalMatching = false ∧
      fallback.pattern.canonicalMatching = true ∧ fallback.pattern.Respelled host args
  · exact .inr hrespelled
  refine .inl ⟨hlength.trans (max_le hexact.1 hfallback.1), fun i token given htoken hgiven => ?_⟩
  have hi : i < max exact.pattern.rest.length fallback.pattern.rest.length :=
    lt_of_lt_of_le (List.getElem?_eq_some_iff.mp htoken).1 hlength
  obtain ⟨given', arg, insensitive, hgiven', hmem, hkey, hsame, horigin⟩ :=
    exists_mem_overlapAt hexact hfallback hi
  obtain rfl : given' = given := Option.some.inj (hgiven'.symm.trans hgiven)
  have hcovered := all_eq_true.mp
    (all_eq_true.mp hcover (token, i) (mk_mem_zipIdx_iff_getElem?.mpr htoken))
    (arg, insensitive) hmem
  simp only [Bool.and_eq_true, Bool.or_eq_true, Bool.not_eq_true', any_eq_true] at hcovered
  obtain ⟨hneeds, alt, halt, hequal⟩ := hcovered
  obtain ⟨hkey', hsame'⟩ := PrefixPattern.tokensEqual_iff.mp hequal
  refine ⟨alt, halt, PrefixPattern.tokensEqual_iff.mpr ⟨hkey'.trans hkey, fun hsensitive => ?_⟩⟩
  rw [hsame' hsensitive]
  -- a case sensitive rule covers a folded spelling only of a plain token of the fallback
  rcases hinsensitive : insensitive with _ | _
  · exact hsame hinsensitive
  rcases horigin hinsensitive with hexactFold | ⟨hfallbackFold, source, hsource, harg⟩
  · rw [hcanonical hexactFold] at hsensitive
    cases hsensitive
  rw [hinsensitive, hsensitive, Bool.true_and, Bool.not_eq_false'] at hneeds
  have hplain : isPlain arg = true := hneeds.resolve_right Bool.false_ne_true
  by_contra hne
  exact hrespelled ⟨hsensitive, hfallbackFold, i, source, arg, given', hsource, harg, hplain, hgiven,
    hkey, hne⟩

/-! ### What a preserving snapshot has -/

variable {P R : Policy} {cmd : List String} {rule : PrefixRule}

namespace Policy

variable {p : Policy} {program : String}

theorem containsPrefixRule_iff :
    p.containsPrefixRule program rule ↔ (program, rule) ∈ p.rulesByProgram := by
  rw [containsPrefixRule, contains_iff_mem, mem_getVec]

theorem hostExecutables_eq (h : P.sameHostExecutables R) (name : String) :
    P.hostExecutables name = R.hostExecutables name := by
  rw [sameHostExecutables, all_eq_true] at h
  by_cases hname : name ∈ (P.hostExecutablesByName ++ R.hostExecutablesByName).map (·.1)
  · exact of_decide_eq_true (h name hname)
  · rw [map_append, mem_append, not_or] at hname
    rw [hostExecutables, hostExecutables, Entries.lookup_eq_none_of_notMem hname.1,
      Entries.lookup_eq_none_of_notMem hname.2]

/-- The parts of the check. -/
structure Preserves (host : Host) (P R : Policy) : Prop where
  hostExecutables : ∀ name, P.hostExecutables name = R.hostExecutables name
  rules : ∀ entry ∈ R.rulesByProgram, entry ∈ P.rulesByProgram
  paths : ∀ program ∈ P.programs, ∀ path, fromAbsolutePath host.env program = some path →
    P.weakensSpelling host R program path = false ∧ P.weakensPath host R program path = false
  network : ∀ domain ∈ R.compiledNetworkDomains.2, domain ∈ P.compiledNetworkDomains.2

theorem preserves (h : P.preservesManagedRequirements host R) : Preserves host P R := by
  rw [preservesManagedRequirements, Bool.and_eq_true, Bool.and_eq_true, Bool.and_eq_true] at h
  obtain ⟨⟨⟨hhost, hrules⟩, hpaths⟩, hnetwork⟩ := h
  refine ⟨hostExecutables_eq hhost, ?_, ?_, ?_⟩
  · intro entry hentry
    exact containsPrefixRule_iff.mp (all_eq_true.mp hrules entry hentry)
  · intro program hprogram path hpath
    have hchecked := all_eq_true.mp hpaths program hprogram
    rw [hpath] at hchecked
    simpa only [Bool.and_eq_true, Bool.not_eq_true'] using hchecked
  · intro domain hdomain
    exact contains_iff_mem.mp (all_eq_true.mp hnetwork domain hdomain)

theorem mem_programs (h : (program, rule) ∈ p.rulesByProgram) : program ∈ p.programs :=
  mem_map_of_mem h

namespace Preserves

variable (h : Preserves host P R)

include h

theorem mem_candidates (hrule : rule ∈ R.candidates host program) :
    rule ∈ P.candidates host program := by
  rw [Policy.mem_candidates, mem_insensitiveRules] at hrule ⊢
  rcases hrule with hrule | ⟨⟨key, hrule, hcanonical, hkey⟩, hne⟩
  · exact .inl (h.rules _ hrule)
  · exact .inr ⟨⟨key, h.rules _ hrule, hcanonical, hkey⟩, hne⟩

theorem admitsPath_eq (name : String) (path : AbsolutePathBuf) :
    P.admitsPath name path = R.admitsPath name path := by
  rw [admitsPath, admitsPath, h.hostExecutables]

theorem mem_exactMatches (hm : m ∈ R.exactMatches host cmd) : m ∈ P.exactMatches host cmd := by
  rcases cmd with _ | ⟨first, args⟩
  · cases hm
  · obtain ⟨rule, hrule, hmatch⟩ := mem_filterMap.mp hm
    exact mem_filterMap.mpr ⟨rule, h.mem_candidates hrule, hmatch⟩

theorem mem_matchHostExecutableRules (hm : m ∈ R.matchHostExecutableRules host cmd) :
    m ∈ P.matchHostExecutableRules host cmd := by
  obtain ⟨first, args, program, basename, rule, found, hcmd, hp, hb, ha, hr, hadm, hf, rfl⟩ :=
    Policy.mem_matchHostExecutableRules.mp hm
  rw [← h.admitsPath_eq] at ha hadm
  exact Policy.mem_matchHostExecutableRules.mpr
    ⟨first, args, program, basename, rule, found, hcmd, hp, hb, ha, h.mem_candidates hr, hadm, hf, rfl⟩

end Preserves


theorem mem_exactMatches_iff :
    m ∈ p.exactMatches host (first :: args) ↔
      ∃ rule ∈ p.candidates host first, rule.matches host (first :: args) = some m :=
  mem_filterMap


/-- A rule stored under another program than its own. -/
def MisKeyed (p : Policy) : Prop := ∃ entry ∈ p.rulesByProgram, entry.2.program ≠ entry.1

end Policy

/-! ### When the managed decision is kept -/

/-- A rule of the policy for the program as it is written matches the command. -/
def Policy.MatchesExactly (host : Host) (p : Policy) (first : String) (args : List String)
    (rule : PrefixRule) : Prop :=
  rule ∈ p.candidates host first ∧ ∃ m, rule.matches host (first :: args) = some m

/-- **How a snapshot weakens a command.**  A managed rule matches only through the basename, the
snapshot has weaker rules for the program as it is written, and either those are case sensitive and
the managed rule is caseless and accepts an argument as another spelling of a plain token, or a rule
of the snapshot is stored under a program that is not its own. -/
structure Weakens (host : Host) (P R : Policy) (cmd : List String) (first : String)
    (args : List String) (program : AbsolutePathBuf) (basename : String) (rules : List PrefixRule)
    (fallback : PrefixRule) : Prop where
  command : cmd = first :: args
  managedExact : R.exactMatches host cmd = []
  resolved : fromAbsolutePath host.env first = some program
  fallbacks : R.hostExecutableRules host program = some (basename, rules)
  mem_fallbacks : fallback ∈ rules
  fallbackMatches : ∃ m, fallback.matches host (basename :: args) = some m
  exact : ∃ rule, P.MatchesExactly host first args rule
  weaker : ∀ rule, P.MatchesExactly host first args rule → rule.decision < fallback.decision
  cause : (fallback.pattern.canonicalMatching = true ∧ fallback.pattern.Respelled host args ∧
    ∀ rule, P.MatchesExactly host first args rule → rule.pattern.canonicalMatching = false) ∨ P.MisKeyed

namespace Policy.Preserves

variable (h : Preserves host P R) {first : String} {program : AbsolutePathBuf} {basename : String}
  {rules : List PrefixRule} {exact fallback : PrefixRule}

include h

omit h in
theorem matchesExactly_of_mem (hkeyed : ¬ P.MisKeyed) {key : String}
    (hrule : (key, rule) ∈ P.rulesByProgram)
    (hkey : key = first ∨ rule.pattern.canonicalMatching ∧ key ≠ first ∧
      host.canonicalKey key = host.canonicalKey first)
    (hargs : rule.pattern.ArgsMatch host args) : P.MatchesExactly host first args rule := by
  have hprogram : rule.pattern.first = key := by
    by_contra hne
    exact hkeyed ⟨_, hrule, hne⟩
  rcases hkey with rfl | ⟨hcanonical, hne, hkey⟩
  · refine ⟨Policy.mem_candidates.mpr (.inl hrule), PrefixRule.matches_iff.mpr ⟨?_, hargs⟩⟩
    rw [hprogram]
    exact PrefixPattern.tokensEqual_self _ _
  · refine ⟨Policy.mem_candidates.mpr (.inr ⟨mem_insensitiveRules.mpr ⟨key, hrule, hcanonical, hkey⟩, ?_⟩),
      PrefixRule.matches_iff.mpr ⟨PrefixPattern.tokensEqual_iff.mpr ⟨?_, ?_⟩, hargs⟩⟩
    · show rule.pattern.first ≠ first
      rw [hprogram]
      exact hne
    · rw [hprogram, hkey]
    · intro hsensitive
      rw [hcanonical] at hsensitive
      cases hsensitive

omit h in
theorem of_hostExecutableRules (hrules : R.hostExecutableRules host program = some (basename, rules))
    (hfallback : fallback ∈ rules) :
    executablePathLookupKey program = some basename ∧ fallback ∈ R.candidates host basename := by
  obtain ⟨hname, -, rfl⟩ := hostExecutableRules_eq_some.mp hrules
  exact ⟨hname, (mem_filter.mp hfallback).1⟩

/-! A managed rule that the path reaches through its basename, no managed rule for the program as it
is written, and rules of the snapshot for it that are all weaker. -/

variable (hmanaged : R.exactMatches host (first :: args) = [])
  (hresolved : fromAbsolutePath host.env first = some program)
  (hrules : R.hostExecutableRules host program = some (basename, rules)) (hfallback : fallback ∈ rules)
  (hweaker : ∀ rule, P.MatchesExactly host first args rule → rule.decision < fallback.decision)
  (hkeyed : ¬ P.MisKeyed) (hfallbackArgs : fallback.pattern.ArgsMatch host args)

omit h in
include hmanaged in
theorem not_mem_candidates (hmatches : P.MatchesExactly host first args exact) :
    exact ∉ R.candidates host first := by
  intro hmem
  obtain ⟨m, hm⟩ := hmatches.2
  have hmem' := mem_exactMatches_iff.mpr ⟨exact, hmem, hm⟩
  rw [hmanaged] at hmem'
  cases hmem'

omit h in
include hweaker hfallbackArgs in
/-- What the check of a pair leaves, if the rules that it takes for protection match. -/
theorem respelled {protecting : List PrefixRule} (hmatches : P.MatchesExactly host first args exact)
    (hpair : canWeakenFallback host exact fallback protecting = false)
    (hprotects : ∀ rule ∈ protecting,
      (exact.pattern.canonicalMatching → rule.pattern.canonicalMatching) →
      rule.pattern.ArgsMatch host args → P.MatchesExactly host first args rule) :
    fallback.pattern.canonicalMatching ∧ fallback.pattern.Respelled host args ∧
      exact.pattern.canonicalMatching = false := by
  have hargs := (PrefixRule.matches_iff.mp hmatches.2).2
  rcases of_not_canWeakenFallback hpair hargs hfallbackArgs with hle |
      ⟨rule, hrule, hle, hcanonical, hcover | ⟨hsensitive, hfold, hrespelled⟩⟩
  · exact absurd (hweaker exact hmatches) (not_lt.mpr hle)
  · exact absurd (hweaker rule (hprotects rule hrule hcanonical hcover)) (not_lt.mpr hle)
  · refine ⟨hfold, hrespelled, ?_⟩
    rw [← Bool.not_eq_true]
    intro hexactFold
    rw [hcanonical hexactFold] at hsensitive
    cases hsensitive

include hmanaged hresolved hrules hfallback hweaker hkeyed hfallbackArgs

/-- A weaker rule stored under the program as it is written: the path check leaves a respelling. -/
theorem of_mem_path (hexact : (first, exact) ∈ P.rulesByProgram)
    (hmatches : P.MatchesExactly host first args exact) :
    fallback.pattern.canonicalMatching ∧ fallback.pattern.Respelled host args ∧
      exact.pattern.canonicalMatching = false := by
  have hnot : R.containsPrefixRule first exact = false := by
    rw [← Bool.not_eq_true, containsPrefixRule_iff]
    exact fun hmem => not_mem_candidates hmanaged hmatches (Policy.mem_candidates.mpr (.inl hmem))
  have hweak := (h.paths first (mem_programs hexact) program hresolved).2
  rw [weakensPath, hrules] at hweak
  have hpair : canWeakenFallback host exact fallback (getVec P.rulesByProgram first) = false := by
    have hall := any_eq_false.mp hweak exact (mem_getVec.mpr hexact)
    rw [hnot, Bool.not_false, Bool.true_and, Bool.not_eq_true, any_eq_false] at hall
    exact Bool.not_eq_true _ ▸ hall fallback hfallback
  exact respelled hweaker hfallbackArgs hmatches hpair fun rule hrule _ hcover =>
    matchesExactly_of_mem hkeyed (mem_getVec.mp hrule) (.inl rfl) hcover

/-- A weaker rule stored under another spelling: the spelling check excludes it. -/
theorem of_mem_spelling (hfold : CaselessKey host.canonicalKey) {key : String} (hexact : (key, exact) ∈ P.rulesByProgram)
    (hcanonical : exact.pattern.canonicalMatching) (hne : key ≠ first)
    (hkey : host.canonicalKey key = host.canonicalKey first)
    (hmatches : P.MatchesExactly host first args exact) : False := by
  obtain ⟨hprogramKey, -⟩ := PrefixRule.matches_iff.mp hmatches.2
  obtain ⟨hbasename, hcandidate⟩ := of_hostExecutableRules hrules hfallback
  -- the other spelling resolves to a path whose name has the key of the basename
  obtain ⟨path, hpath, hnames⟩ := hfold.fromAbsolutePath_key host.env hkey.symm hresolved
  obtain ⟨name, hname, hnameKey⟩ : ∃ name, executablePathLookupKey path = some name ∧
      host.canonicalKey name = host.canonicalKey basename := by
    rw [executablePathLookupKey, Option.map_eq_some_iff] at hbasename
    obtain ⟨file, hfile, rfl⟩ := hbasename
    rw [hfile, Option.map_some, Option.map_eq_some_iff] at hnames
    obtain ⟨name, hname, hnameKey⟩ := hnames
    exact ⟨name, by rw [executablePathLookupKey, hname]; rfl, hnameKey⟩
  obtain ⟨managedProgram, hmanagedRule, hmanagedKey⟩ : ∃ managedProgram,
      (managedProgram, fallback) ∈ R.rulesByProgram ∧
        host.canonicalKey managedProgram = host.canonicalKey name := by
    rcases Policy.mem_candidates.mp hcandidate with hmem | ⟨hmem, -⟩
    · exact ⟨basename, hmem, hnameKey.symm⟩
    · obtain ⟨managedProgram, hmem, -, hmemKey⟩ := mem_insensitiveRules.mp hmem
      exact ⟨managedProgram, hmem, hmemKey.trans hnameKey.symm⟩
  have hnot : R.containsPrefixRule exact.program exact = false := by
    rw [← Bool.not_eq_true, containsPrefixRule_iff]
    intro hmem
    refine not_mem_candidates hmanaged hmatches (Policy.mem_candidates.mpr ?_)
    by_cases hsame : exact.program = first
    · exact .inl (hsame ▸ hmem)
    · refine .inr ⟨mem_insensitiveRules.mpr ⟨exact.program, hmem, hcanonical, ?_⟩, hsame⟩
      exact (PrefixPattern.tokensEqual_iff.mp hprogramKey).1.symm
  have hweak := (h.paths key (mem_programs hexact) path hpath).1
  have hpair : canWeakenFallback host exact fallback (getVec P.rulesByProgram key) = false := by
    rw [← Bool.not_eq_true]
    intro hcan
    have hvec := mem_getVec.mpr hexact
    have htrue : P.weakensSpelling host R key path = true := by
      rw [weakensSpelling, hname, Bool.and_eq_true]
      refine ⟨any_eq_true.mpr ⟨exact, hvec, hcanonical⟩, any_eq_true.mpr
        ⟨managedProgram, mem_programs hmanagedRule, ?_⟩⟩
      rw [Bool.and_eq_true, decide_eq_true_eq]
      refine ⟨hmanagedKey, any_eq_true.mpr ⟨exact, mem_filter.mpr ⟨hvec, ?_⟩,
        any_eq_true.mpr ⟨fallback, mem_getVec.mpr hmanagedRule, hcan⟩⟩⟩
      rw [hcanonical, hnot]
      rfl
    rw [hweak] at htrue
    cases htrue
  obtain ⟨-, -, hsensitive⟩ := respelled hweaker hfallbackArgs hmatches hpair
    fun rule hrule hrule' hcover => matchesExactly_of_mem hkeyed (mem_getVec.mp hrule)
      (.inr ⟨hrule' hcanonical, hne, hkey⟩) hcover
  rw [hcanonical] at hsensitive
  cases hsensitive

omit hkeyed hfallbackArgs in
/-- A managed rule that the snapshot's exact rules are all weaker than. -/
theorem weakens (hfold : CaselessKey host.canonicalKey)
    (hfallbackMatches : ∃ m, fallback.matches host (basename :: args) = some m)
    (hexact : ∃ rule, P.MatchesExactly host first args rule) :
    Weakens host P R (first :: args) first args program basename rules fallback := by
  refine ⟨rfl, hmanaged, hresolved, hrules, hfallback, hfallbackMatches, hexact, hweaker, ?_⟩
  by_cases hkeyed : P.MisKeyed
  · exact .inr hkeyed
  have hfallbackArgs := (PrefixRule.matches_iff.mp hfallbackMatches).2
  have hcause : ∀ rule, P.MatchesExactly host first args rule →
      fallback.pattern.canonicalMatching = true ∧ fallback.pattern.Respelled host args ∧
        rule.pattern.canonicalMatching = false := by
    intro rule hrule
    rcases Policy.mem_candidates.mp hrule.1 with hmem | ⟨hindex, hne⟩
    · exact h.of_mem_path hmanaged hresolved hrules hfallback hweaker hkeyed hfallbackArgs hmem hrule
    obtain ⟨key, hmem, hcanonical, hkey⟩ := mem_insensitiveRules.mp hindex
    have hkeyNe : key ≠ first := by
      rintro rfl
      exact hkeyed ⟨(key, rule), hmem, hne⟩
    exact (h.of_mem_spelling hmanaged hresolved hrules hfallback hweaker hkeyed hfallbackArgs hfold
      hmem hcanonical hkeyNe hkey hrule).elim
  obtain ⟨rule, hrule⟩ := hexact
  exact .inl ⟨(hcause rule hrule).1, (hcause rule hrule).2.1, fun other hother => (hcause other hother).2.2⟩

end Policy.Preserves


/-- **A snapshot that passes the check keeps the managed rules** on every command but those of
`Weakens`. -/
theorem snapshot_keeps_managed_iff (host : Host) (hfold : CaselessKey host.canonicalKey) (P R : Policy)
    (hpreserves : P.preservesManagedRequirements host R = true) (cmd : List String) (resolve : Bool)
    (hmatches : R.matchesForCommandWithOptions host cmd none resolve ≠ []) :
    (atLeastAsStrict (P.matchesForCommandWithOptions host cmd none resolve)
        (R.matchesForCommandWithOptions host cmd none resolve) = true ∧
      ∀ domain ∈ R.compiledNetworkDomains.2, domain ∈ P.compiledNetworkDomains.2) ↔
    ¬ ∃ first args program basename rules fallback,
      Weakens host P R cmd first args program basename rules fallback := by
  have h := Policy.preserves hpreserves
  rw [and_iff_left h.network, atLeastAsStrict_iff hmatches]
  rw [Policy.matchesForCommandWithOptions_eq] at hmatches
  rw [Policy.matchesForCommandWithOptions_eq, Policy.matchesForCommandWithOptions_eq]
  by_cases hmanaged : R.exactMatches host cmd = []
  · rw [if_neg (not_not.mpr hmanaged)] at hmatches ⊢
    cases resolve with
    | false => exact absurd rfl hmatches
    | true =>
      by_cases hexact : P.exactMatches host cmd = []
      · -- the snapshot falls back as well, to more rules
        rw [if_neg (not_not.mpr hexact)]
        refine iff_of_true ?_ ?_
        · exact exists_strictest hmatches fun m hm => h.mem_matchHostExecutableRules hm
        · rintro ⟨first, args, program, basename, rules, fallback, hweakens⟩
          obtain ⟨rule, hcandidate, m, hm⟩ := hweakens.exact
          obtain rfl := hweakens.command
          have hmem := Policy.mem_exactMatches_iff.mpr ⟨rule, hcandidate, hm⟩
          rw [hexact] at hmem
          cases hmem
      · rw [if_pos hexact]
        constructor
        · rintro ⟨m, hm, hle⟩ ⟨first, args, program, basename, rules, fallback, hweakens⟩
          obtain rfl := hweakens.command
          obtain ⟨rule, hcandidate, hmatch⟩ := Policy.mem_exactMatches_iff.mp hm
          obtain ⟨found, hfound⟩ := hweakens.fallbackMatches
          have hmem := Policy.mem_matchHostExecutableRules_iff.mpr ⟨first, args, program, basename, rules,
            fallback, found, rfl, hweakens.resolved, hweakens.fallbacks, hweakens.mem_fallbacks, hfound, rfl⟩
          have hlt := hweakens.weaker rule ⟨hcandidate, m, hmatch⟩
          have hle' := hle _ hmem
          rw [RuleMatch.withResolvedProgram_decision, PrefixRule.decision_of_matches hfound,
            PrefixRule.decision_of_matches hmatch] at hle'
          exact absurd hlt (not_lt.mpr hle')
        · intro hnot
          rcases hs : strictest (R.matchHostExecutableRules host cmd) with _ | d
          · exact absurd (strictest_eq_none.mp hs) hmatches
          obtain ⟨⟨m, hm, rfl⟩, hmax⟩ := strictest_eq_some.mp hs
          obtain ⟨first, args, program, basename, rules, fallback, found, rfl, hresolved, hrules, hfallback,
            hfound, rfl⟩ := Policy.mem_matchHostExecutableRules_iff.mp hm
          by_contra hnone
          have hweaker : ∀ rule, P.MatchesExactly host first args rule →
              rule.decision < fallback.decision := by
            intro rule hrule
            obtain ⟨m, hmatch⟩ := hrule.2
            by_contra hnlt
            refine hnone ⟨m, Policy.mem_exactMatches_iff.mpr ⟨rule, hrule.1, hmatch⟩, fun r hr => ?_⟩
            calc r.decision ≤ _ := hmax r hr
              _ = fallback.decision := by
                rw [RuleMatch.withResolvedProgram_decision, PrefixRule.decision_of_matches hfound]
              _ ≤ rule.decision := not_lt.mp hnlt
              _ = m.decision := (PrefixRule.decision_of_matches hmatch).symm
          obtain ⟨m, hm⟩ := exists_mem_of_ne_nil _ hexact
          obtain ⟨rule, hcandidate, hmatch⟩ := Policy.mem_exactMatches_iff.mp hm
          exact hnot ⟨first, args, program, basename, rules, fallback, h.weakens hmanaged hresolved
            hrules hfallback hweaker hfold ⟨found, hfound⟩ ⟨rule, hcandidate, m, hmatch⟩⟩
  · -- every exact match of the requirements is one of the snapshot
    have hexact : P.exactMatches host cmd ≠ [] := by
      obtain ⟨m, hm⟩ := exists_mem_of_ne_nil _ hmanaged
      exact ne_nil_of_mem (h.mem_exactMatches hm)
    rw [if_pos hmanaged, if_pos hexact]
    refine iff_of_true ?_ ?_
    · exact exists_strictest hmanaged fun m hm => h.mem_exactMatches hm
    · rintro ⟨first, args, program, basename, rules, fallback, hweakens⟩
      exact hmanaged hweakens.managedExact

end

/-! ### Two snapshots -/

/-- The Unicode key of ASCII text and of the Greek question mark, whose canonical decomposition is
the semicolon. -/
def foldChar (c : Char) : Char := if c = '\u037e' then ';' else c.toLower

theorem toLower_eq {c d : Char} (hd : d.toNat < 97 ∨ 122 < d.toNat) (h : c.toLower = d) : c = d := by
  unfold Char.toLower at h
  split at h
  · next hc =>
    have hlow : 65 ≤ c.val.toNat := hc.1
    have hhigh : c.val.toNat ≤ 90 := hc.2
    have hval : c.val.toNat + 32 = d.toNat := by
      have hadd := congrArg (fun e => e.val.toNat) h
      simp only [UInt32.toNat_add] at hadd
      rw [show ('a'.val - 'A'.val).toNat = 32 by decide, Nat.mod_eq_of_lt (by omega)] at hadd
      exact hadd
    omega
  · exact h

def greekHost : Host where
  canonicalKey s := String.ofList (s.toList.map foldChar)
  env := ⟨none, none⟩

theorem greekHost_caselessKey : CaselessKey greekHost.canonicalKey := by
  refine CaselessKey.ofChars fun c d hd => ?_
  have hsemicolon : d ≠ ';' ∧ foldChar d = d ∧ (d.toNat < 97 ∨ 122 < d.toNat) := by
    revert hd
    simp only [mem_cons, not_mem_nil, or_false]
    rintro (rfl | rfl | rfl) <;> decide
  constructor
  · intro h
    rw [foldChar] at h
    split at h
    · exact absurd h.symm hsemicolon.1
    · exact toLower_eq hsemicolon.2.2 h
  · rintro rfl
    exact hsemicolon.2.1

/-- Caseless: `x ;` is forbidden. -/
def semicolonRule : String × PrefixRule :=
  ("x", ⟨⟨true, "x", [.single ";"]⟩, .forbidden, none⟩)

def semicolonRequirements : Policy := ⟨[semicolonRule], [], []⟩

/-- The snapshot allows `/bin/x` and forbids `/bin/x ;` in exactly this spelling. -/
def semicolonSnapshot : Policy :=
  ⟨[semicolonRule, programRule "/bin/x" .allow,
    ("/bin/x", ⟨⟨false, "/bin/x", [.single ";"]⟩, .forbidden, none⟩)], [], []⟩

theorem semicolon_not_weakened :
    ¬ ∃ first args program basename rules fallback, Weakens greekHost semicolonSnapshot
      semicolonRequirements ["/bin/x", ";"] first args program basename rules fallback :=
  (snapshot_keeps_managed_iff greekHost greekHost_caselessKey semicolonSnapshot semicolonRequirements
    (by decide) ["/bin/x", ";"] true (by decide)).mp ⟨by decide, by decide⟩

/-- With the Greek question mark for the semicolon, the snapshot that passed the check allows what
the requirements forbid. -/
theorem greekQuestionMark_allowed :
    CaselessKey greekHost.canonicalKey ∧
    semicolonSnapshot.preservesManagedRequirements greekHost semicolonRequirements = true ∧
    strictest (semicolonRequirements.matchesForCommandWithOptions greekHost ["/bin/x", "\u037e"] none true) =
      some .forbidden ∧
    strictest (semicolonSnapshot.matchesForCommandWithOptions greekHost ["/bin/x", "\u037e"] none true) =
      some .allow :=
  ⟨greekHost_caselessKey, by decide, by decide, by decide⟩

end ExecPolicy

end CodexPlus
