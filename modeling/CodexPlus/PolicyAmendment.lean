/-
CodexPlus/PolicyAmendment.lean

Approval rules (`core/src/exec_policy.rs`).  A prefix rule that comes with a list of commands is
offered to the user if a trial policy with the rule allows them all; once it is accepted,
`append_amendment_and_update` adds it to the policy in force.

The trial also counts the commands that only the heuristic fallback allows, so the rule takes
effect on the commands that it matches (`amendment_takes_effect`).  The append to the rules
file comes before the update and is taken to have succeeded.
-/
import CodexPlus.ExecPolicy

namespace CodexPlus

open List

namespace ExecPolicy

variable (host : Host)

/-! ### Offering a rule and adding it -/

/-- `BANNED_PREFIX_SUGGESTIONS`: programs, each with the arguments it is banned with. -/
def bannedPrefixSuggestions : List (List String) :=
  [(["Rscript", "env", "git", "osascript", "pypy", "pypy3", "pythonw", "pyw", "rm", "sudo"], [[]]),
    (["/bin/bash", "/bin/sh", "/bin/zsh", "bash", "sh", "zsh"], [[], ["-c"], ["-lc"]]),
    (["bun"], [[], ["-e"], ["run"]]), (["cmd", "cmd.exe"], [[], ["/c"], ["/k"]]),
    (["dash", "fish", "ksh"], [[], ["-c"]]), (["deno"], [[], ["eval"]]),
    (["julia", "lua", "node", "nodejs", "perl", "ruby"], [[], ["-e"]]),
    (["npm", "pnpm", "yarn"], [["run"]]), (["php"], [[], ["-r"]]), (["py"], [[], ["-3"]]),
    (["powershell", "powershell.exe"], [[], ["-Command"], ["-EncodedCommand"], ["-File"], ["-c"]]),
    (["pwsh"], [[], ["-Command"], ["-EncodedCommand"], ["-File"], ["-c"], ["-e"], ["-ec"], ["-f"]]),
    (["python", "python3"], [[], ["-"], ["-c"]])].flatMap fun (programs, arguments) =>
      programs.flatMap fun program => arguments.map (program :: ·)

/-- `is_policy_match` -/
def RuleMatch.isPolicyMatch : RuleMatch → Bool
  | prefixRuleMatch .. => true
  | heuristicsRuleMatch .. => false

/-- `Policy::add_prefix_rule` -/
def Policy.addPrefixRule (p : Policy) : List String → Decision → Except String Policy
  | [], _ => .error "prefix cannot be empty"
  | first :: rest, decision => .ok { p with rulesByProgram := p.rulesByProgram ++
      [(first, ⟨⟨false, first, rest.map .single⟩, decision, none⟩)] }

/-- The matches of `Policy::check_multiple_with_options`, with host executables resolved. -/
def Policy.checkMultiple (p : Policy) (commands : List (List String))
    (fallback : List String → Decision) : List RuleMatch :=
  commands.flatMap fun command => p.matchesForCommandWithOptions host command (some fallback) true

def prefixRuleWouldApproveAllCommands (p : Policy) (prefixRule : List String)
    (commands : List (List String)) (fallback : List String → Decision) : Bool :=
  match p.addPrefixRule prefixRule .allow with
  | .error _ => false
  | .ok trial => commands.all fun command =>
      strictest (trial.checkMultiple host [command] fallback) = some .allow

def deriveRequestedExecpolicyAmendmentFromPrefixRule (prefixRule : Option (List String))
    (matchedRules : List RuleMatch) (p : Policy) (commands : List (List String))
    (fallback : List String → Decision) : Option (List String) := do
  let prefixRule ← prefixRule
  if prefixRule = [] ∨ prefixRule ∈ bannedPrefixSuggestions then none
  else if matchedRules.any (·.isPolicyMatch) then none
  else if prefixRuleWouldApproveAllCommands host p prefixRule commands fallback then
    some prefixRule
  else none

/-- The shortcut of the update: a rule allows the amendment, read as a command. -/
def alreadyAllowed (p : Policy) (amendment : List String) : Bool :=
  let existing := p.checkMultiple host [amendment] fun _ => .forbidden
  strictest existing = some .allow && existing.any fun m => m.isPolicyMatch && m.decision = .allow

/-- The policy in force after `append_amendment_and_update`. -/
def appendAmendmentAndUpdate (p : Policy) (amendment : List String) : Except String Policy :=
  if alreadyAllowed host p amendment then .ok p else p.addPrefixRule amendment .allow

/-! ### Evaluations that allow -/

/-- The rules that match a command, without the fallback. -/
abbrev Policy.ruleMatches (p : Policy) (cmd : List String) : List RuleMatch :=
  p.matchesForCommandWithOptions host cmd none true

variable {host} {p : Policy} {m : RuleMatch} {cmd : List String} {commands : List (List String)}
  {fallback : List String → Decision}

namespace Policy

theorem isPolicyMatch_of_mem (h : m ∈ p.ruleMatches host cmd) : m.isPolicyMatch := by
  have hrule : ∀ (r : PrefixRule) cmd m, r.matches host cmd = some m → m.isPolicyMatch := by
    intro r cmd m hm
    obtain ⟨_, -, rfl⟩ := Option.map_eq_some_iff.mp hm
    rfl
  rw [ruleMatches, matchesForCommandWithOptions_eq] at h
  split at h
  · rcases cmd with - | ⟨first, args⟩
    · cases h
    · obtain ⟨r, -, hm⟩ := mem_filterMap.mp h
      exact hrule r _ m hm
  · obtain ⟨_, _, _, _, r, found, -, -, -, -, -, -, hfound, rfl⟩ :=
      mem_matchHostExecutableRules.mp h
    rcases found with _ | _
    · rfl
    · exact hrule r _ _ hfound

theorem matches_some_eq (fallback : List String → Decision) :
    p.matchesForCommandWithOptions host cmd (some fallback) true =
      if p.ruleMatches host cmd = [] then [.heuristicsRuleMatch cmd (fallback cmd)]
      else p.ruleMatches host cmd := by
  unfold ruleMatches matchesForCommandWithOptions
  dsimp only
  split <;> simp_all

/-- Commands are allowed if the rules that match them allow, and the fallback the others. -/
theorem allowed_iff (hne : commands ≠ []) :
    strictest (p.checkMultiple host commands fallback) = some .allow ↔ ∀ command ∈ commands,
      (∀ m ∈ p.ruleMatches host command, m.decision = .allow) ∧
        (p.ruleMatches host command = [] → fallback command = .allow) := by
  have hle : ∀ d : Decision, d ≤ .allow ↔ d = .allow := fun d => by cases d <;> decide
  have hone : ∀ command, (∀ m ∈ p.matchesForCommandWithOptions host command (some fallback) true,
      m.decision = .allow) ↔ (∀ m ∈ p.ruleMatches host command, m.decision = .allow) ∧
        (p.ruleMatches host command = [] → fallback command = .allow) := by
    intro command
    rw [matches_some_eq]
    split <;> simp_all [RuleMatch.decision]
  simp only [← hone, strictest_eq_some, hle, checkMultiple, mem_flatMap]
  constructor
  · exact fun h command hcommand m hm => h.2 m ⟨command, hcommand, hm⟩
  · intro h
    refine ⟨?_, fun m ⟨command, hcommand, hm⟩ => h command hcommand m hm⟩
    obtain ⟨command, hcommand⟩ := exists_mem_of_ne_nil _ hne
    have hmatched : p.matchesForCommandWithOptions host command (some fallback) true ≠ [] := by
      rw [matches_some_eq]
      split <;> simp_all
    obtain ⟨m, hm⟩ := exists_mem_of_ne_nil _ hmatched
    exact ⟨m, ⟨command, hcommand, hm⟩, h command hcommand m hm⟩

end Policy

/-! ### The amendment takes effect -/

/-- What an offered amendment has passed. -/
theorem derive_eq_some {prefixRule : Option (List String)} {amendment : List String}
    (h : deriveRequestedExecpolicyAmendmentFromPrefixRule host prefixRule
      (p.checkMultiple host commands fallback) p commands fallback = some amendment) :
    (∀ command ∈ commands, p.ruleMatches host command = []) ∧
      ∃ trial, p.addPrefixRule amendment .allow = .ok trial ∧ ∀ command ∈ commands,
        strictest (trial.checkMultiple host [command] fallback) = some .allow := by
  obtain ⟨asked, -, h⟩ := Option.bind_eq_some_iff.mp h
  split_ifs at h with hbanned hmatched happroved
  cases h
  constructor
  · intro command hcommand
    by_contra hne
    obtain ⟨m, hm⟩ := exists_mem_of_ne_nil _ hne
    refine hmatched (any_eq_true.mpr ⟨m, mem_flatMap.mpr ⟨command, hcommand, ?_⟩,
      Policy.isPolicyMatch_of_mem hm⟩)
    rwa [Policy.matches_some_eq, if_neg hne]
  · unfold prefixRuleWouldApproveAllCommands at happroved
    split at happroved
    · cases happroved
    · next trial hadd => exact ⟨trial, hadd, by simpa using happroved⟩

/-- **An accepted rule takes effect.**  Where an amendment is offered for a list of commands, the
update succeeds, and the policy then allows the list under every fallback that allows the commands
without a matching rule.  The fallback of the offer does, unless the update took its shortcut. -/
theorem amendment_takes_effect (host : Host) (p : Policy) (commands : List (List String))
    (fallback : List String → Decision) (prefixRule : Option (List String)) (amendment : List String)
    (hne : commands ≠ [])
    (h : deriveRequestedExecpolicyAmendmentFromPrefixRule host prefixRule
      (p.checkMultiple host commands fallback) p commands fallback = some amendment) :
    ∃ updated, appendAmendmentAndUpdate host p amendment = .ok updated ∧
      (∀ other, (∀ command ∈ commands, updated.ruleMatches host command = [] →
          other command = .allow) →
        strictest (updated.checkMultiple host commands other) = some .allow) ∧
      (alreadyAllowed host p amendment = false →
        strictest (updated.checkMultiple host commands fallback) = some .allow) := by
  obtain ⟨hunmatched, trial, hadd, htrial⟩ := derive_eq_some h
  have hallowed := fun command hcommand =>
    (Policy.allowed_iff (cons_ne_nil command [])).mp (htrial command hcommand) command mem_cons_self
  unfold appendAmendmentAndUpdate
  split
  · next hshortcut =>
    refine ⟨p, rfl, fun other hother => (Policy.allowed_iff hne).mpr fun command hcommand =>
      ⟨?_, hother command hcommand⟩, fun hnot => absurd hshortcut (by simp [hnot])⟩
    simp [hunmatched command hcommand]
  · refine ⟨trial, hadd, fun other hother => (Policy.allowed_iff hne).mpr fun command hcommand =>
      ⟨(hallowed command hcommand).1, hother command hcommand⟩, fun _ => ?_⟩
    exact (Policy.allowed_iff hne).mpr hallowed

/-- A rule on `cargo test` is offered for a list with a command that only the fallback allows, and
takes effect under this fallback. -/
theorem cargoTest_takes_effect :
    let fallback := fun command => if command = ["ls"] then Decision.allow else .prompt
    let commands := [["cargo", "test", "-q"], ["ls"]]
    ∃ updated, appendAmendmentAndUpdate asciiHost ⟨[], [], []⟩ ["cargo", "test"] = .ok updated ∧
      strictest (updated.checkMultiple asciiHost commands fallback) = some .allow := by
  intro fallback commands
  obtain ⟨updated, hupdated, -, hallowed⟩ := amendment_takes_effect asciiHost ⟨[], [], []⟩ commands
    fallback (some ["cargo", "test"]) ["cargo", "test"] (by decide) (by decide)
  exact ⟨updated, hupdated, hallowed (by decide)⟩

/-- Under another fallback the same list is not allowed.  And where a canonical rule on `Cargo`
covers the amendment, but is declared for other paths, the update takes its shortcut and the offer
has no effect. -/
theorem amendment_without_effect :
    let commands := [["cargo", "test"], ["ls"]]
    (∃ updated, deriveRequestedExecpolicyAmendmentFromPrefixRule asciiHost (some ["cargo"])
        (Policy.checkMultiple asciiHost ⟨[], [], []⟩ commands fun _ => .allow) ⟨[], [], []⟩ commands
        (fun _ => .allow) = some ["cargo"] ∧
      appendAmendmentAndUpdate asciiHost ⟨[], [], []⟩ ["cargo"] = .ok updated ∧
      strictest (updated.checkMultiple asciiHost commands fun _ => .prompt) = some .prompt) ∧
    let p : Policy := ⟨[("Cargo", ⟨⟨true, "Cargo", []⟩, .allow, none⟩)], [], [("Cargo", [])]⟩
    deriveRequestedExecpolicyAmendmentFromPrefixRule asciiHost (some ["cargo"])
        (p.checkMultiple asciiHost [["/bin/cargo"]] fun _ => .prompt) p [["/bin/cargo"]]
        (fun _ => .prompt) = some ["cargo"] ∧
      appendAmendmentAndUpdate asciiHost p ["cargo"] = .ok p ∧
      strictest (p.checkMultiple asciiHost [["/bin/cargo"]] fun _ => .prompt) = some .prompt := by
  exact ⟨⟨_, by decide, rfl, by decide⟩, by decide, if_pos (by decide), by decide⟩

end ExecPolicy

end CodexPlus
