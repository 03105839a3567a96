import AutoAgents.EnginePhases
import AutoAgents.VerificationSelection

/-! The checks of a release: the commands of the selected steps, and the verification that executes them. A command
is kept as the words that are joined for the shell, one list for each command between `&&`. -/

namespace AutoAgents.Verification

open Base

/-! ### Commands of steps -/

/-- A run of vitest on one file, or on all targets of a step without selectors; with the names of the tests it is
narrowed to, if to any. -/
structure VitestRun where
  args : List String
  files : List String
  names : List String
  filters : List String
  deriving DecidableEq

inductive Command
  | pytest (interpreter args targets : List String)
  | vitest (args targets : List String)
  | vitestRuns (runs : List VitestRun)
  deriving DecidableEq

/-- `re.sub(r"([\\^$.*+?()\[\]{}|])", r"\\\1", name)` -/
def escapeName (name : String) : String :=
  let special := ['\\', '^', '$', '.', '*', '+', '?', '(', ')', '[', ']', '\x7b', '\x7d', '|']
  String.ofList (name.toList.flatMap fun c => if special.contains c then ['\\', c] else [c])

namespace VitestRun

/-- The pattern behind `-t`: the filters of the step, and the names. -/
def pattern (run : VitestRun) : String :=
  let filters := "|".intercalate (run.filters.map fun value => "(?:" ++ value ++ ")")
  let selected := "(?:" ++ "|".intercalate (run.names.map escapeName) ++ ")"
  if run.names = [] then filters
  else if filters = "" then selected
  else "^(?=[\\s\\S]*(?:" ++ filters ++ "))(?=[\\s\\S]*" ++ selected ++ ")[\\s\\S]*$"

def words (run : VitestRun) : List String :=
  ["npm", "exec", "--", "vitest", "run"] ++ run.args ++ run.files ++ if run.pattern = "" then [] else ["-t", run.pattern]

end VitestRun

namespace Command

def words : Command → List (List String)
  | pytest interpreter args targets =>
      [interpreter ++ ["-m", "pytest", "-q"] ++ args ++ if targets = [] then ["tests"] else targets]
  | vitest args targets => [["npm", "exec", "--", "vitest", "run"] ++ args ++ targets]
  | vitestRuns runs => runs.map VitestRun.words

/-- The command runs the target, as itself or with its whole file. -/
def Runs (target : String) : Command → Prop
  | pytest _ _ targets => target ∈ targets
  | vitest _ targets => target ∈ targets
  | vitestRuns runs => ∃ run ∈ runs, target ∈ run.files ∨
      String.ofList (beforeColons target.toList) ∈ run.files ∧
        (run.names = [] ∨ ∃ name, afterColons target.toList = some name ∧ String.ofList name ∈ run.names)

end Command

/-- `[item.strip() for item in items if item.strip()]` -/
def stripped (items : List String) : List String :=
  (items.map fun item => String.ofList (Operator.strip item.toList)).filter (· != "")

def nameOptions : List String := ["-t", "--testNamePattern", "--test-name-pattern"]

/-- The name filters among the arguments, and the other arguments. -/
def nameFilters : List String → Except String (List String × List String)
  | [] => .ok ([], [])
  | arg :: rest =>
      if arg ∈ nameOptions then
        match rest with
        | [] => .error "Vitest name filter requires a value"
        | value :: rest => (nameFilters rest).map fun (filters, remaining) => (value :: filters, remaining)
      else
        let option := arg.toList.takeWhile (· != '=')
        if String.ofList option ∈ nameOptions ∧ '=' ∈ arg.toList then
          (nameFilters rest).map fun (filters, remaining) =>
            (String.ofList (arg.toList.drop (option.length + 1)) :: filters, remaining)
        else (nameFilters rest).map fun (filters, remaining) => (filters, arg :: remaining)

/-- Files with the names selected in each. The name is empty where the whole file is a target. -/
def pairedNames (targets : List String) : List (String × List String) :=
  targets.foldl (fun paired target =>
    let path := String.ofList (beforeColons target.toList)
    let name := String.ofList ((afterColons target.toList).getD [])
    setField paired path ((paired.lookup path).getD [] ++ [name])) []

/-- What the project offers: interpreters, files that match patterns, and what is seen to be launched by a command. -/
structure Environment where
  localPython : Bool
  glob : List String → List String := fun _ => []
  launchedTargets : List (List String) → List String := fun _ => []
  launchesKnown : List (List String) → Bool

/-- `command_from_verification_step` -/
def commandFromVerificationStep (env : Environment) (step : VerificationStep) : Except String Command :=
  let runner := stripLower step.runner
  let kind := if stripLower step.kind = "" then "test" else stripLower step.kind
  let targets := stripped step.targets
  let args := stripped step.args
  if kind = "test" ∧ runner = "pytest" then
    .ok (.pytest (if env.localPython then ["./.conda/bin/python"] else ["conda", "run", "-p", "./.conda", "python"]) args targets)
  else if kind = "test" ∧ runner = "vitest" then do
    let (filters, remaining) ← nameFilters args
    let selectors := targets.any hasColons
    if filters.length ≤ 1 ∧ selectors = false then return .vitest args targets
    else if selectors = true then
      return .vitestRuns ((pairedNames targets).map fun (path, names) =>
        ⟨remaining, [path], if names.all (· != "") then names else [], filters⟩)
    else return .vitestRuns [⟨remaining, targets, [], filters⟩]
  else .error ("unsupported verification step runner: " ++ (if step.runner = "" then "<empty>" else step.runner))

/-! ### Checks -/

structure Check where
  command : Command
  targets : List String
  purpose : Purpose
  outputs : List String
  cacheScope : String
  resultCacheScope : String

def components (name : String) : Git.Path := (name.toList.splitOn '/').map String.ofList

/-- The target leaves the workspace. -/
def outside (target : String) : Bool :=
  let path := beforeColons target.toList
  path.head? == some '/' || (path.splitOn '/').contains ['.', '.']

/-- An output that would be the source of a test. -/
def sourceOutput (targets : List String) (name : String) : Bool :=
  (targets.map fun target => String.ofList (beforeColons target.toList)).contains name ||
    mutableSource [] (components name)

/-- `compile_checks`, of the declaration that a step makes. No command of a step starts with an interpreter that is
not bound, so the command is kept as it is. -/
def compileStep (env : Environment) (step : VerificationStep) : Except String Check := do
  let command ← commandFromVerificationStep env step
  let purpose : Purpose := if step.kind = "test" then .behavior
    else if step.kind = "artifact" ∨ step.kind = "integrity" then .artifact else .environment
  let outputs := env.glob step.artifactGlobs
  let targets := if step.targets = [] then env.launchedTargets command.words else step.targets
  if purpose = .behavior ∧ env.launchesKnown command.words = false then
    .error "Behavior checks need a supported test runner and exact targets"
  else if targets.any outside = true then .error "Verification target leaves the workspace"
  else if outputs.any (fun name => !productPath (components name)) = true then
    .error "Declare exact workspace output artifact paths"
  else if outputs.any (sourceOutput targets) = true then .error "Test sources cannot be mutable output artifacts"
  else if step.cacheScope ∉ ["candidate", "run_context", "source", "off"] ∨
      step.resultCacheScope ∉ ["candidate", "observed_inputs", "auto", "off"] then .error "Invalid verification cache policy"
  else return ⟨command, targets, purpose, outputs, step.cacheScope, step.resultCacheScope⟩

/-- `configured_checks(level="release")`, with the changed paths that git shows: the checks of the selected steps.
The commands that are configured as texts add checks of their own, or refuse the call. -/
def configuredChecks (env : Environment) (compileText : String → Except String Check) (project : Project) (steps : Steps)
    (gates : GateConfig) (changed : List String) : Except String (List Check) := do
  let selection ← selectVerificationSteps project steps gates false { level := "release", changedPaths := changed }
  let specs ← selection.steps.mapM (compileStep env)
  let commands ← gates.commands.mapM compileText
  return specs ++ commands

/-! ### Verification -/

structure Report where
  command : Command
  ok : Bool

/-- The loop of `Verifier.run`. Executing a check may raise an error; a check that fails raises one too. -/
def verifierLoop (execute : Check → Except String Bool) : List Check → List Report → Except String (List Report)
  | [], reports => .ok reports
  | spec :: specs, reports => do
      let ok ← execute spec
      if ok = false then .error "tests_failed" else verifierLoop execute specs (reports ++ [⟨spec.command, ok⟩])

/-- `Verifier.run` -/
def verifierRun (execute : Check → Except String Bool) (specs : List Check) : Except String (List Report) :=
  if specs = [] then .error "No required verification contract" else verifierLoop execute specs []

end AutoAgents.Verification
