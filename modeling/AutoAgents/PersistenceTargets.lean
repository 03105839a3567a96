import AutoAgents.OperatorStore
import AutoAgents.ProofFiles

/-! The persistence targets of a project, the changes that plans declare for them, and the errors of what is done to a
target. An error says whether a mutation had started; only an explicit `False` lets the caller try again. -/

namespace AutoAgents.Persistence

open Operator (stripText)

/-! ### Targets -/

/-- `PersistenceTargetConfig`. The values of `locator` are texts. -/
structure Target where
  targetId : String
  environment : String
  kind : String
  locator : List (String × String) := []
  associatedPaths : List String := []
  interfaceVersion : Nat := 1
  lifecycle : String := "ready"
  statusArgv : List String := []
  migrateArgv : List String := []
  applyArgv : List String := []
  initializeArgv : List String := []
  resetArgv : List String := []
  verifyArgv : List String := []
  deriving DecidableEq, Repr

/-- `target.migrate_argv or target.apply_argv` -/
def Target.migration (target : Target) : List String := if target.migrateArgv = [] then target.applyArgv else target.migrateArgv

structure Config where
  targets : List Target
  deriving DecidableEq, Repr

def Config.target (config : Config) (targetId : String) : Option Target :=
  config.targets.find? fun target => target.targetId == targetId

/-! ### Changes -/

/-- A declared change, by the texts of the fields that are read. A field may be absent. -/
structure Change where
  storageTransition : Option String := none
  strategy : Option String := none
  targetIds : Option (List String) := none
  toVersion : Option String := none
  deriving DecidableEq, Repr

/-- `value or default` -/
def textOr (value : Option String) (default : String) : String :=
  match value with
  | none => default
  | some text => if text = "" then default else text

/-- The storage actions of the strategies of the first version. -/
def strategyTransitions : List (String × String) :=
  [("none", "none"), ("initial_schema", "initialize"), ("startup_compatible", "migrate_in_place"),
    ("clean_break", "rebuild"), ("external_operator", "external_operator")]

def transitionStrategies : List (String × String) :=
  [("none", "none"), ("initialize", "initial_schema"), ("migrate_in_place", "startup_compatible"),
    ("rebuild", "clean_break"), ("external_operator", "external_operator")]

/-- `persistence_storage_transition` -/
def Change.transition (change : Change) : String :=
  let transition := stripText (textOr change.storageTransition "")
  if transition ≠ "" then transition
  else (strategyTransitions.lookup (stripText (textOr change.strategy "none"))).getD "none"

/-- `persistence_change_strategy` -/
def Change.strategyName (change : Change) : String :=
  let legacy := stripText (textOr change.strategy "")
  if legacy ≠ "" then legacy else (transitionStrategies.lookup change.transition).getD "none"

/-! ### Errors -/

/-- What is reported of a command. -/
structure CommandOutcome where
  argv : List String
  executionStarted : Bool
  error : Option String := none
  timedOut : Bool := false
  returncode : Option Int := none
  stdoutTail : String := ""
  stderrTail : String := ""
  protocolVersion : Option String := none
  deriving DecidableEq, Repr

/-- `PersistenceContractError` -/
structure ContractError where
  message : String
  targetId : String := ""
  step : String := ""
  mutationStarted : Option Bool := none
  code : String := "persistence_contract_error"
  commandOutcome : Option CommandOutcome := none
  deriving DecidableEq, Repr

/-- `with_execution_context`: what is known already stays, but for the flag. -/
def ContractError.withExecutionContext (e : ContractError) (targetId step : String) (mutationStarted : Bool) : ContractError :=
  { e with
    targetId := if targetId ≠ "" ∧ e.targetId = "" then stripText targetId else e.targetId
    step := if step ≠ "" ∧ e.step = "" then step else e.step
    mutationStarted := some mutationStarted }

/-- What is raised: an error of the contract, or an exception that nothing here catches. -/
inductive Raised
  | contract (e : ContractError)
  | other (text : String)
  deriving DecidableEq, Repr

/-- The targets that a change names. -/
def targetsForChange (config : Config) (change : Change) : Except Raised (List Target) :=
  match change.targetIds with
  | none | some [] =>
      .error (.contract { message := "persistence change has no target_ids", step := "preflight", code := "missing_target_ids" })
  | some ids => ids.mapM fun raw =>
      match config.target (stripText raw) with
      | some target => .ok target
      | none => .error (.contract {
          message := "persistence target is not configured: " ++ stripText raw ++ "; run persistence-configure"
          targetId := stripText (stripText raw)
          step := "preflight"
          code := "target_not_configured" })

/-! ### Commands -/

/-- `_SHELL_CONTROL_PATTERN` -/
def shellControl (c : Char) : Bool := ['|', ';', '&', '<', '>', '\x60', '\n', '\r'].contains c

/-- `_validate_runtime_argv` -/
def validateRuntimeArgv (argv : List String) (targetId step : String) : Except Raised Unit :=
  if argv.isEmpty || argv.any (fun item => stripText item == "" || item.toList.any shellControl) then
    .error (.contract {
      message := "persistence " ++ step ++ " argv is unsafe for target " ++ targetId
      targetId := stripText targetId
      step
      code := "unsafe_argv" })
  else .ok ()

/-- `Path(text).name` -/
def fileName (text : String) : String := ((Proofs.pathParts text).getLast?).getD ""

/-- `_is_pytest_command` -/
def isPytestCommand (argv : List String) : Bool :=
  match argv with
  | [] => false
  | program :: rest =>
      let executable := (fileName program).toLower
      ["pytest", "pytest.exe", "py.test", "py.test.exe"].contains executable ||
        ((["python", "python3", "python.exe", "python3.exe"].contains executable ||
            "python3.".toList.isPrefixOf executable.toList) &&
          rest.take 2 == ["-m", "pytest"])

/-- `".py::" in item` -/
def selectsTest (item : String) : Bool := decide (".py::".toList <:+: item.toList)

/-- `text[-n:]` -/
def tail (n : Nat) (text : String) : String := String.ofList (text.toList.drop (text.toList.length - n))

end AutoAgents.Persistence
