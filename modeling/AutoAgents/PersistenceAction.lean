import AutoAgents.BaseOutcome
import AutoAgents.PersistencePaths

/-! The action of a persistence change: every target is checked before any is touched, then the commands of each run in
order and the paths of a rebuild are removed. What the commands do to the machine is given from outside; a log keeps
each command that was attempted, each path that a rebuild came to and each path that was removed. -/

namespace AutoAgents.Persistence

open Base (Json FloatText decode)
open Operator (strip stripText)
open Proofs (Path Machine)

/-! ### Commands and events -/

inductive Step
  | status
  | reset
  | init
  | migrate
  | verify
  deriving DecidableEq, Repr

def Step.name : Step → String
  | status => "status"
  | reset => "reset"
  | init => "initialize"
  | migrate => "migrate"
  | verify => "verify"

/-- The end of a process: it could not be started, it took too long, its output is no text, or it has ended. -/
inductive Outcome
  | notStarted (error : String)
  | timedOut (error : String)
  | undecodable (error : String)
  | exited (returncode : Int) (stdout stderr : String)
  deriving DecidableEq, Repr

inductive Event
  | collected (target : Target) (step : Step) (argv : List String)
  | ran (target : Target) (step : Step) (argv : List String) (outcome : Outcome)
  | listed (target : Target) (paths : List Path) (world : World)
  | visited (target : Target) (path : Path) (world : World)
  | removed (target : Target) (path : Path) (world : World)
  deriving DecidableEq

/-- The machine, what was done to it, and the variables of the action that its handlers read. -/
structure Site where
  world : World
  log : List Event := []
  mutationStarted : Bool := false
  activeStep : String := ""

/-- What the action meets: the project as it was named, the environment, the ignore patterns, entries that cannot be
removed, and what each command answers and makes of the machine. `str` is that of Python, and `isOne` says `x == 1`. -/
structure Host (φ : Type) where
  projectRoot : Path
  environ : String → Option String
  ignored : Ignored
  stuck : World → Path → Bool
  command : Site → List String → Outcome × World
  str : Json φ → String
  isOne : φ → Bool

abbrev Action := EStateM Raised Site

variable {φ : Type} [FloatText φ]

def lift {α : Type} (x : Except Raised α) : Action α :=
  match x with
  | .ok a => pure a
  | .error e => throw e

def record (event : Event) : Action Unit := modify fun s => { s with log := s.log ++ [event] }

def started : Action Unit := modify fun s => { s with mutationStarted := true }

def enter (step : String) : Action Unit := modify fun s => { s with activeStep := step }

/-- `subprocess.run` -/
def Host.process (host : Host φ) (argv : List String) : Action Outcome := fun s =>
  .ok (host.command s argv).1 { s with world := (host.command s argv).2 }

/-- What a command of a target has reported. -/
structure CommandReport (φ : Type) where
  step : Step
  argv : List String
  outputTail : String
  protocol : Option (List (String × Json φ))

inductive StepReport (φ : Type)
  | command (report : CommandReport φ)
  | delete (path : String)

/-- `payload.get("protocol_version") != 1` does not hold. -/
def Host.firstProtocol (host : Host φ) : Option (Json φ) → Bool
  | some (.int n) => n == 1
  | some (.bool b) => b
  | some (.float x) => host.isOne x
  | _ => false

def failed {α : Type} (target : Target) (step : Step) (message code : String) (outcome : CommandOutcome) : Action α :=
  throw (.contract {
    message := "persistence " ++ step.name ++ message
    targetId := stripText target.targetId
    step := step.name
    code
    commandOutcome := some outcome })

/-- The reply of a command whose process has ended with success, where the interface has a protocol. -/
def Host.protocolOf (host : Host φ) (target : Target) (step : Step) (outcome : CommandOutcome) (stdout : String) :
    Action (Option (List (String × Json φ))) :=
  if 2 ≤ target.interfaceVersion then
    match (decode (strip stdout.toList) : Option (Json φ)) with
    | none => failed target step (" returned invalid protocol JSON for " ++ target.targetId) "invalid_protocol_json" outcome
    | some (.obj payload) =>
        if host.firstProtocol (payload.lookup "protocol_version") = false then
          failed target step (" returned unsupported protocol for " ++ target.targetId) "unsupported_protocol"
            { outcome with protocolVersion := (payload.lookup "protocol_version").map host.str }
        else match payload.lookup "ok" with
          | some (.bool true) => pure (some payload)
          | _ => failed target step (" did not report ok for " ++ target.targetId) "protocol_not_ok" outcome
    | some _ => failed target step (" returned unsupported protocol for " ++ target.targetId) "unsupported_protocol" outcome
  else pure none

/-- `_run_target_command` -/
def Host.runTargetCommand (host : Host φ) (target : Target) (step : Step) (argv : List String) : Action (CommandReport φ) := do
  lift (validateRuntimeArgv argv target.targetId step.name)
  let outcome ← host.process argv
  record (.ran target step argv outcome)
  match outcome with
  | .notStarted error =>
      failed target step (" failed for " ++ target.targetId ++ ": " ++ error) "command_start_failed"
        { argv, executionStarted := false, error := some error }
  | .timedOut error =>
      failed target step (" failed for " ++ target.targetId ++ ": " ++ error) "command_timed_out"
        { argv, executionStarted := true, timedOut := true }
  | .undecodable error => throw (.other error)
  | .exited returncode stdout stderr =>
      let ended : CommandOutcome :=
        { argv, executionStarted := true, returncode := some returncode, stdoutTail := tail 1000 stdout, stderrTail := tail 1000 stderr }
      if returncode ≠ 0 then
        let detail := if stderr ≠ "" then stderr else if stdout ≠ "" then stdout else "command failed"
        failed target step (" failed for " ++ target.targetId ++ ": " ++ stripText (tail 2000 detail)) "command_failed" ended
      else
        let protocol ← host.protocolOf target step ended stdout
        return { step, argv, outputTail := tail 1000 stdout, protocol }

/-! ### Removing -/

/-- What is left of the machine where a path is removed: what stands elsewhere, and the entries that cannot go. -/
def removeTree (stuck : Path → Bool) (path : Path) (m : Machine) : Machine :=
  ⟨m.entries.filter fun entry => !path.isPrefixOf entry.1 || stuck entry.1⟩

/-- `Path.exists`, with the error of a place that may not be looked at. -/
def existsAt (m : Machine) (path : Path) : Except Raised Bool :=
  match m.exists? path with
  | .ok found => .ok found
  | .error _ => .error (.other "PermissionError")

/-- `_remove_path` -/
def Host.removePath (host : Host φ) (target : Target) (path : Path) : Action Unit := do
  let s ← get
  record (.visited target path s.world)
  if ← lift (existsAt s.world.files path) then
    if ← lift (isSymlink s.world.files path) then
      lift (refused ("persistence cleanup refuses symlink: " ++ showPath path))
    else
      record (.removed target path s.world)
      let files := removeTree (host.stuck s.world) path s.world.files
      modify fun s => { s with world := { s.world with files } }
      if files.entries.any fun entry => path.isPrefixOf entry.1 then throw (.other ("OSError: " ++ showPath path))
  else pure ()

/-! ### Checks before the action -/

def missing (target : Target) (step : Step) (what code : String) : Except Raised Unit :=
  .error (.contract { message := what, targetId := stripText target.targetId, step := step.name, code })

/-- The strategies of the first version. -/
def legacyStrategies : List String := ["initial_schema", "startup_compatible", "clean_break"]

/-- The commands that a target would run, or the first thing that it lacks. -/
def Host.preflightCommands (host : Host φ) (w : World) (root : Path) (action : String) (target : Target) :
    Except Raised (List (Step × List String)) := do
  let transition := (strategyTransitions.lookup action).getD action
  if target.lifecycle ≠ "ready" then
    throw (.contract {
      message := "persistence target " ++ target.targetId ++ " is pending bootstrap"
      targetId := stripText target.targetId
      step := "preflight"
      code := "target_not_ready" })
  if 2 ≤ target.interfaceVersion ∧ target.statusArgv = [] then
    missing target .status ("persistence target " ++ target.targetId ++ " requires status_argv") "missing_status_command"
  let status := if 2 ≤ target.interfaceVersion then [(Step.status, target.statusArgv)] else []
  let change ← if transition = "rebuild" then do
      if target.kind = "compose_service" ∧ target.resetArgv = [] then
        missing target .reset ("compose rebuild target " ++ target.targetId ++ " requires reset_argv") "missing_mutation_command"
      let _ ← destructiveTargetPaths host.ignored host.environ w root target
      if target.initializeArgv = [] then
        missing target .init ("rebuild target " ++ target.targetId ++ " requires initialize_argv") "missing_mutation_command"
      pure ((if target.resetArgv = [] then [] else [(Step.reset, target.resetArgv)]) ++ [(Step.init, target.initializeArgv)])
    else if transition = "initialize" then do
      if target.initializeArgv = [] then
        missing target .init ("initialize target " ++ target.targetId ++ " requires initialize_argv") "missing_mutation_command"
      pure [(Step.init, target.initializeArgv)]
    else do
      if target.migration = [] then
        missing target .migrate (action ++ " target " ++ target.targetId ++ " requires " ++
          (if action ∈ legacyStrategies then "apply_argv" else "migrate_argv")) "missing_mutation_command"
      pure [(Step.migrate, target.migration)]
  if target.verifyArgv = [] then
    missing target .verify ("persistence target " ++ target.targetId ++ " requires verify_argv") "missing_verify_command"
  return status ++ change ++ [(Step.verify, target.verifyArgv)]

/-- `_preflight_pytest_command` -/
def Host.preflightPytestCommand (host : Host φ) (target : Target) (step : Step) (argv : List String) : Action Unit :=
  if isPytestCommand argv = true ∧ argv.any selectsTest = true then do
    let outcome ← host.process (argv ++ ["--collect-only"])
    record (.collected target step (argv ++ ["--collect-only"]))
    let failedCommand (error : String) : Action Unit := throw (.contract {
      message := "persistence " ++ step.name ++ " preflight failed for " ++ target.targetId ++ ": " ++ error
      targetId := stripText target.targetId
      step := step.name ++ "_preflight"
      code := "preflight_command_failed" })
    match outcome with
    | .notStarted error => failedCommand error
    | .timedOut error => failedCommand error
    | .undecodable error => throw (.other error)
    | .exited returncode stdout stderr =>
        if returncode ≠ 0 then
          let detail := if stderr ≠ "" then stderr else if stdout ≠ "" then stdout else "pytest collection failed"
          throw (.contract {
            message := "persistence " ++ step.name ++ " configuration is stale for " ++ target.targetId ++
              ": pytest could not collect the configured selector(s) before any persistence action was executed: " ++
              stripText (tail 2000 detail) ++ "; run persistence-configure"
            targetId := stripText target.targetId
            step := step.name ++ "_preflight"
            code := "stale_pytest_selector"
            commandOutcome := some {
              argv := argv ++ ["--collect-only"]
              executionStarted := true
              returncode := some returncode
              stdoutTail := tail 1000 stdout
              stderrTail := tail 1000 stderr } })
  else pure ()

def Host.preflightCommand (host : Host φ) (target : Target) (command : Step × List String) : Action Unit := do
  lift (validateRuntimeArgv command.2 target.targetId command.1.name)
  host.preflightPytestCommand target command.1 command.2

def Host.preflightTarget (host : Host φ) (root : Path) (action : String) (target : Target) : Action Unit :=
  if target.environment = "production" then pure ()
  else do
    let s ← get
    let commands ← lift (host.preflightCommands s.world root action target)
    commands.forM (host.preflightCommand target)

/-- `_preflight_persistence_targets` -/
def Host.preflightPersistenceTargets (host : Host φ) (root : Path) (action : String) (targets : List Target) : Action Unit :=
  targets.forM (host.preflightTarget root action)

/-! ### The action -/

structure TargetResult (φ : Type) where
  targetId : String
  environment : String
  status : String
  steps : List (StepReport φ)

structure ActionResult (φ : Type) where
  ok : Bool
  strategy : String
  storageTransition : Option String
  targets : List (TargetResult φ)
  executed : Bool

def contractError (message code : String) : Raised := .contract { message, code }

def Host.reportCommand (host : Host φ) (target : Target) (step : Step) (argv : List String) : Action (StepReport φ) := do
  return .command (← host.runTargetCommand target step argv)

/-- The paths of a rebuild, one after the other. -/
def Host.removePaths (host : Host φ) (root : Path) (target : Target) : List Path → Action (List (StepReport φ))
  | [] => pure []
  | path :: rest => do
      host.removePath target path
      -- `path.relative_to(root)`
      if root.isPrefixOf path = false then throw (.other ("ValueError: " ++ showPath path))
      else do
        let deleted ← host.removePaths root target rest
        return .delete (String.ofList (['/'].intercalate ((path.drop root.length).map String.toList))) :: deleted

def Host.resetTarget (host : Host φ) (target : Target) : Action (List (StepReport φ)) := do
  enter "reset"
  if target.kind = "compose_service" ∧ target.resetArgv = [] then
    throw (contractError ("compose rebuild target " ++ target.targetId ++ " requires reset_argv") "missing_mutation_command")
  else if target.resetArgv ≠ [] then do
    -- from the attempt on, whatever comes of it
    started
    return [← host.reportCommand target .reset target.resetArgv]
  else pure []

def Host.deleteTarget (host : Host φ) (root : Path) (target : Target) : Action (List (StepReport φ)) := do
  enter "delete"
  let s ← get
  let paths ← lift (destructiveTargetPaths host.ignored host.environ s.world root target)
  record (.listed target paths s.world)
  if paths ≠ [] then do
    started
    host.removePaths root target paths
  else pure []

def Host.initTarget (host : Host φ) (transition : String) (target : Target) : Action (List (StepReport φ)) := do
  enter "initialize"
  if target.initializeArgv = [] then
    throw (contractError (transition ++ " target " ++ target.targetId ++ " requires initialize_argv") "missing_mutation_command")
  else do
    started
    return [← host.reportCommand target .init target.initializeArgv]

def Host.rebuild (host : Host φ) (root : Path) (target : Target) : Action (List (StepReport φ)) := do
  let reset ← host.resetTarget target
  let deleted ← host.deleteTarget root target
  let initialized ← host.initTarget "rebuild" target
  return reset ++ deleted ++ initialized

def Host.migrate (host : Host φ) (transition : String) (target : Target) : Action (List (StepReport φ)) := do
  enter "migrate"
  if target.migration = [] then
    throw (contractError (transition ++ " target " ++ target.targetId ++ " requires migrate_argv") "missing_mutation_command")
  else do
    started
    return [← host.reportCommand target .migrate target.migration]

/-- `str(protocol.get(name, "")).strip()` -/
def Host.versionOf (host : Host φ) (protocol : List (String × Json φ)) (name : String) : String :=
  stripText (((protocol.lookup name).map host.str).getD "")

/-- A target is ready where its reply says so and leaves nothing pending. -/
def reportsReady (protocol : List (String × Json φ)) : Bool :=
  (match protocol.lookup "state" with
    | some (.str state) => state == "ready"
    | _ => false) &&
  match protocol.lookup "pending_versions" with
  | none | some .null | some (.arr []) => true
  | _ => false

def Host.atVersion (host : Host φ) (expected : String) (protocol : List (String × Json φ)) : Bool :=
  expected == "" || host.versionOf protocol "current_version" == expected && host.versionOf protocol "latest_version" == expected

def orMissing (version : String) : String := if version = "" then "<missing>" else version

/-- What the reply of `verify` has to say. -/
def Host.checkVerified (host : Host φ) (change : Change) (target : Target) (protocol : List (String × Json φ)) : Action Unit :=
  let expected := stripText (change.toVersion.getD "")
  if reportsReady protocol = false then
    throw (contractError ("persistence verify did not report a ready target for " ++ target.targetId) "verify_not_ready")
  else if host.atVersion expected protocol = false then
    throw (contractError ("persistence verify version mismatch for " ++ target.targetId ++ ": expected " ++ expected ++
      ", current " ++ orMissing (host.versionOf protocol "current_version") ++ ", latest " ++
      orMissing (host.versionOf protocol "latest_version")) "verify_version_mismatch")
  else pure ()

def Host.statusTarget (host : Host φ) (target : Target) : Action (List (StepReport φ)) := do
  enter "status"
  if 2 ≤ target.interfaceVersion ∧ target.statusArgv ≠ [] then return [← host.reportCommand target .status target.statusArgv]
  else pure []

def Host.changeTarget (host : Host φ) (root : Path) (transition : String) (target : Target) : Action (List (StepReport φ)) :=
  if transition = "rebuild" then host.rebuild root target
  else if transition = "initialize" then host.initTarget "initialize" target
  else host.migrate transition target

def Host.verifyTarget (host : Host φ) (change : Change) (target : Target) : Action (List (StepReport φ)) := do
  enter "verify"
  if target.verifyArgv = [] then
    throw (contractError ("persistence target " ++ target.targetId ++ " requires verify_argv") "missing_verify_command")
  else do
    let verification ← host.runTargetCommand target .verify target.verifyArgv
    if 2 ≤ target.interfaceVersion then do
      host.checkVerified change target (verification.protocol.getD [])
      return [.command verification]
    else return [.command verification]

/-- The steps of a target, in order. -/
def Host.targetSteps (host : Host φ) (root : Path) (change : Change) (target : Target) : Action (TargetResult φ) := do
  let status ← host.statusTarget target
  let changed ← host.changeTarget root change.transition target
  let verification ← host.verifyTarget change target
  return {
    targetId := target.targetId
    environment := target.environment
    status := "verified"
    steps := status ++ changed ++ verification }

/-- An error of the contract leaves a target with what is known of the action. -/
def Host.runTarget (host : Host φ) (root : Path) (change : Change) (target : Target) : Action (TargetResult φ) :=
  if target.environment = "production" then
    pure { targetId := target.targetId, environment := target.environment, status := "generate_only", steps := [] }
  else
    tryCatch (host.targetSteps root change target) fun raised => do
      let s ← get
      match raised with
      | .contract e => throw (.contract (e.withExecutionContext target.targetId s.activeStep s.mutationStarted))
      | .other text => throw (.other text)

def Host.runTargets (host : Host φ) (root : Path) (change : Change) : List Target → Action (List (TargetResult φ))
  | [] => pure []
  | target :: rest => do
      let result ← host.runTarget root change target
      let results ← host.runTargets root change rest
      return result :: results

/-- What is checked before any target is touched. -/
def Host.preflight (host : Host φ) (root : Path) (change : Change) (config : Config) : Action (List Target) := do
  let targets ← lift (targetsForChange config change)
  host.preflightPersistenceTargets root (if change.storageTransition.isSome then change.transition else change.strategyName) targets
  return targets

/-- A change for which nothing runs: there is none, or it is the implementation task of the first version. -/
def Change.idle (change : Change) : Bool :=
  change.transition == "none" || change.storageTransition.isNone && change.strategyName == "initial_schema"

/-- `execute_persistence_action` -/
def Host.executePersistenceAction (host : Host φ) (change : Change) (config : Config) : Action (ActionResult φ) := do
  let s ← get
  let root ← lift (resolve s.world.files host.projectRoot)
  if change.idle = true then
    return {
      ok := true
      strategy := change.strategyName
      storageTransition := if change.transition = "none" then some "none" else none
      targets := []
      executed := false }
  else do
    let targets ← tryCatch (host.preflight root change config) fun raised =>
      match raised with
      | .contract e => throw (.contract (e.withExecutionContext "" "preflight" false))
      | .other text => throw (.other text)
    let results ← host.runTargets root change targets
    return {
      ok := true
      strategy := change.strategyName
      storageTransition := some change.transition
      targets := results
      executed := true }

end AutoAgents.Persistence
