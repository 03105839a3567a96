import AutoAgents.VerificationSteps

/-! The selection of verification steps: what a change affects, when it is escalated to the release, and what the
selected steps depend on. -/

namespace AutoAgents.Verification

open Base

inductive Level
  | affected
  | release
  deriving DecidableEq, Repr

def Level.name : Level → String
  | affected => "affected"
  | release => "release"

/-- `effective_level in _step_levels(step)` -/
def VerificationStep.at (step : VerificationStep) (level : Level) : Bool := (stepLevels step).contains level.name

abbrev Steps := List VerificationStep

/-- `{step.proof_id: step for step in steps if step.proof_id}` -/
def indexed (steps : Steps) : List (String × VerificationStep) :=
  objectOf ((steps.filter fun step => step.proofId != "").map fun step => (step.proofId, step))

/-! ### The release -/

/-- Steps with targets left out or selectors deselected are named after what is left. -/
def remaining (project : Project) (step : VerificationStep) (targets args : List String) : VerificationStep :=
  { step with
    proofId := step.proofId ++ ".remaining-" ++ project.remainingDigest (targets.insertionSort (· ≤ ·)) args
    targets, args }

/-- The files that a step of the affected level runs as a whole. -/
def coveredFiles (steps : Steps) : List String :=
  ((steps.filter (·.at .affected)).flatMap fun step => step.targets.filter fun target => !hasColons target).map targetFile

/-- `sorted(covered_selectors.get(_target_file(target), set()))` -/
def coveredSelectors (steps : Steps) (target : String) : List String :=
  let selectors := (steps.filter (·.at .affected)).flatMap fun step => step.targets.filter hasColons
  ((selectors.filter fun selector => targetFile selector == targetFile target).dedup).insertionSort (· ≤ ·)

/-- `args` with what is executed already deselected. -/
def deselecting (steps : Steps) (targets args : List String) : List String :=
  (targets.flatMap (coveredSelectors steps)).foldl
    (fun args selector => if ("--deselect=" ++ selector) ∈ args then args else args ++ ["--deselect=" ++ selector]) args

/-- One step of the release without what the affected level executes. -/
def withoutOverlap (project : Project) (steps : Steps) (step : VerificationStep) : Option VerificationStep :=
  let targets := step.targets.filter fun target => !(coveredFiles steps).contains (targetFile target)
  let args := if stripLower step.runner = "pytest" then deselecting steps targets step.args else step.args
  if step.targets ≠ [] ∧ targets = [] then none
  else if targets = step.targets ∧ args = step.args then some step
  else some (remaining project step targets args)

/-- `remove_release_target_overlap` -/
def removeReleaseTargetOverlap (project : Project) (releaseSteps steps : Steps) : Steps :=
  releaseSteps.filterMap (withoutOverlap project steps)

/-- `release_selection` -/
def releaseSelection (project : Project) (steps : Steps) (optimized preserve : Bool) : Steps :=
  if optimized = true then steps.filter fun step => step.at .affected || step.at .release
  else
    let eligible := steps.filter (·.at .release)
    if preserve = true then eligible else removeReleaseTargetOverlap project eligible steps

/-! ### Prerequisites -/

/-- The prerequisites of a step that are not present yet. -/
def addDependencies (index : List (String × VerificationStep)) (strict : Bool) (step : VerificationStep) :
    List String → List String → Steps → Except String (Steps × List String)
  | [], present, added => .ok (added, present)
  | proofId :: rest, present, added =>
      match index.lookup proofId with
      | none =>
          if strict = true then .error ("proof " ++ step.proofId ++ " requires unavailable prerequisite " ++ proofId)
          else addDependencies index strict step rest present added
      | some dependency =>
          if proofId ∈ present then addDependencies index strict step rest present added
          else addDependencies index strict step rest (proofId :: present) (added ++ [dependency])

/-- The loop of `_include_dependencies`, from the cursor on. -/
def includeFrom (index : List (String × VerificationStep)) (strict : Bool) :
    Nat → Steps → List String → Except String Steps
  | _, [], _ => .ok []
  | 0, _ :: _, _ => .ok []
  | n + 1, step :: pending, present => do
      let (added, present) ← addDependencies index strict step step.dependsOnProofs present []
      let rest ← includeFrom index strict n (pending ++ added) present
      return step :: rest

/-- `_include_dependencies`. Every step is passed once, and every proof is added once. -/
def includeDependencies (selected : Steps) (index : List (String × VerificationStep)) (strict : Bool) :
    Except String Steps := do
  let result ← includeFrom index strict (selected.length + index.length) selected (selected.map (·.proofId))
  let order := index.map Prod.fst
  return result.insertionSort fun step other => order.idxOf step.proofId ≤ order.idxOf other.proofId

/-! ### Changed paths -/

/-- What a step declares to depend on. -/
def declared (step : VerificationStep) : List String := step.impactPaths ++ step.targets.map targetFile

/-- The paths before `::` in `impact_symbols`. -/
def symbolPaths (step : VerificationStep) : List String :=
  (step.impactSymbols.filter hasColons).map fun entry => String.ofList (beforeColons entry.toList)

/-- The change of a path affects the step. -/
def affects (project : Project) (optimized : Bool) (step : VerificationStep) (path : String) : Bool :=
  ((declared step ++ symbolPaths step).any (pathMatches path) || (closureForTargets project step.targets).contains path) &&
    (!optimized || symbolImpact step path (project.changedSymbols path) != some false)

/-- What has been selected, which paths are mapped, and why. -/
structure Picked where
  selected : Steps
  mapped : List String
  reasons : List (String × List String)

/-- One turn of the loop over the eligible steps. -/
def pickStep (project : Project) (optimized : Bool) (changed : List String) (picked : Picked) (step : VerificationStep) :
    Picked :=
  let matched := changed.filter (affects project optimized step)
  if matched = [] then picked
  else {
    selected := picked.selected ++ [step]
    mapped := picked.mapped ++ matched
    reasons := setField picked.reasons step.proofId ((matched.insertionSort (· ≤ ·)).map ("impact:" ++ ·)) }

def pickImpacted (project : Project) (optimized : Bool) (changed : List String) (eligible : Steps) : Picked :=
  eligible.foldl (pickStep project optimized changed) ⟨[], [], []⟩

def testRunner (path : String) : String := if ".py".toList.isSuffixOf path.toList then "pytest" else "vitest"

/-- The step that runs any test of the kind. -/
def trustedRunner (steps : Steps) (path : String) : Except String VerificationStep :=
  match steps.find? fun step => step.runner = testRunner path ∧ step.command = "" with
  | some step => .ok step
  | none => .error ("changed test has no trusted runner: " ++ path)

/-- The step of the release that runs a test of the file. -/
def releaseOwner (steps : Steps) (path : String) : Option VerificationStep :=
  steps.find? fun step => step.at .release && step.targets.any fun target => targetFile target == path

def changedTestId (project : Project) (path : String) : String := "affected.changed-test." ++ project.pathDigest path

/-- The step for a changed test, after its owner. -/
def affectedTest (project : Project) (optimized preserve : Bool) (owner : VerificationStep) (path : String) : VerificationStep :=
  { owner with
    proofId := changedTestId project path
    levels := ["affected"]
    cadence := "implement_and_final"
    impactPaths := [path]
    targets := [path]
    dependsOnProofs := if preserve && !optimized then owner.dependsOnProofs else []
    impactSymbols := if optimized then [] else owner.impactSymbols
    parallelSafe := !optimized && owner.parallelSafe
    coalesceSafe := !optimized && owner.coalesceSafe
    nodeReplaySafe := !optimized && owner.nodeReplaySafe
    releaseTrigger := !optimized && owner.releaseTrigger }

/-- One turn of the loop over the changed tests. -/
def pickChangedTest (project : Project) (steps : Steps) (optimized preserve : Bool) (picked : Picked) (path : String) :
    Except String Picked :=
  let covers (step : VerificationStep) :=
    step.targets.any fun target => if optimized then target == path else targetFile target == path
  let add (owner : VerificationStep) : Picked :=
    { selected := picked.selected ++ [affectedTest project optimized preserve owner path]
      mapped := picked.mapped ++ [path]
      reasons := setField picked.reasons (changedTestId project path) ["changed_test:" ++ path] }
  if isTestPath path = false ∨ picked.selected.any covers = true then .ok picked
  else
    match releaseOwner steps path with
    | some owner => .ok (add owner)
    | none => if optimized = true then (trustedRunner steps path).map add else .ok picked

/-- Steps that are not selected yet, each once. -/
def extendMissing (selected extra : Steps) : Steps :=
  extra.foldl (fun selected step => if step ∈ selected then selected else selected ++ [step]) selected

/-- The escalated selection. -/
def escalated (project : Project) (steps : Steps) (optimized preserve : Bool) (selected : Steps) : Steps :=
  let release := releaseSelection project steps optimized preserve
  if preserve = true then selected ++ release.filter fun step => !selected.contains step else release

/-- What is known of a selection before its prerequisites are included. -/
structure Draft where
  level : Level
  selected : Steps
  mapped : List String
  unmapped : List String
  reason : String
  reasons : List (String × List String)

/-- The selection of an affected level, with the escalation of unmapped paths. -/
def affectedDraft (project : Project) (steps : Steps) (gates : GateConfig) (preserve : Bool) (changed : List String) :
    Except String Draft := do
  let optimized := gates.optimized
  let eligible := steps.filter (·.at .affected)
  let picked ← changed.foldlM (pickChangedTest project steps optimized preserve) (pickImpacted project optimized changed eligible)
  let mapped := changed.filter fun path => picked.mapped.contains path
  let unmapped := changed.filter fun path => !picked.mapped.contains path
  if unmapped = [] then return ⟨.affected, picked.selected, mapped, [], "", picked.reasons⟩
  else if optimized = true ∨ gates.unmappedChangePolicy = "release" then
    return ⟨.release, escalated project steps optimized preserve picked.selected, changed, [],
      "changed paths are outside the declared/static impact graph", picked.reasons⟩
  else if gates.unmappedChangePolicy = "fallback" then
    let fallback := gates.fallbackProofIds.filterMap fun proofId => (indexed steps).lookup proofId
    return ⟨.affected, extendMissing picked.selected fallback, mapped, unmapped, "", picked.reasons⟩
  else return ⟨.affected, picked.selected, mapped, unmapped, "", picked.reasons⟩

/-- The first part of the selection, up to its prerequisites. -/
def draft (project : Project) (steps : Steps) (gates : GateConfig) (preserve : Bool) (requested : Level)
    (changed : List String) : Except String Draft :=
  let blocked := requested == .affected && changed.any fun path => gates.releaseBlockingPaths.any (pathMatches path)
  if blocked = true then
    .ok ⟨.release, releaseSelection project steps gates.optimized preserve, changed, [],
      "changed path matches release_blocking_paths", []⟩
  else if requested = .release then
    .ok ⟨.release, releaseSelection project steps gates.optimized preserve, changed, [], "", []⟩
  else if changed = [] then .ok ⟨.affected, [], [], [], "", []⟩
  else affectedDraft project steps gates preserve changed

/-- `preserve_release_targets` adds the steps of the affected level that the change reaches. -/
def preserved (project : Project) (steps : Steps) (changed : List String) (selected : Steps) : Steps :=
  extendMissing selected (steps.filter fun step => step.at .affected &&
    changed.any fun path =>
      (closureForTargets project step.targets).contains path || (declared step).any (pathMatches path))

/-- The required proofs and all prerequisites. -/
def completed (steps : Steps) (preserve : Bool) (required : List String) (selected : Steps) : Except String Steps :=
  includeDependencies (extendMissing selected (required.filterMap fun proofId => (indexed steps).lookup proofId)) (indexed steps) preserve

/-- The step for a changed test of a release. -/
def releaseTest (project : Project) (owner : VerificationStep) (path : String) : VerificationStep :=
  { owner with
    proofId := changedTestId project path
    targets := [path]
    impactPaths := [path]
    impactSymbols := []
    dependsOnProofs := []
    parallelSafe := false
    coalesceSafe := false
    nodeReplaySafe := false
    releaseTrigger := false }

/-- One turn of the last loop: changed tests of a release that no step has as a target. -/
def addChangedTest (project : Project) (steps : Steps) (picked : Steps × List (String × List String)) (path : String) :
    Except String (Steps × List (String × List String)) :=
  if isTestPath path = false ∨ picked.1.any (fun step => step.targets.contains path) = true then .ok picked
  else
    (trustedRunner steps path).map fun owner =>
      (picked.1 ++ [releaseTest project owner path],
        setField picked.2 (changedTestId project path) ["changed_test:" ++ path])

/-- The last loop of a release. -/
def withChangedTests (project : Project) (steps : Steps) (gates : GateConfig) (changed : List String) (level : Level)
    (picked : Steps × List (String × List String)) : Except String (Steps × List (String × List String)) :=
  if gates.optimized = true ∧ level = .release then changed.foldlM (addChangedTest project steps) picked else .ok picked

structure Selection where
  requestedLevel : Level
  level : Level
  steps : Steps
  changedPaths : List String
  mappedPaths : List String
  unmappedPaths : List String
  proofIds : List String
  forcedReleaseReason : String
  selectionReasons : List (String × List String)

/-- What a caller asks for. -/
structure Request where
  level : String
  changedPaths : List String := []
  requiredProofIds : List String := []

/-- `level` as it is read. -/
def readLevel (level : String) : Except String Level :=
  if stripLower level = "affected" then .ok .affected
  else if stripLower level = "release" then .ok .release
  else .error ("unsupported verification level: " ++ level)

/-- The paths that have changed, each once. -/
def changedOf (paths : List String) : List String := fromKeys ((paths.map normalized).filter (· != ""))

/-- A selected step asks for the release. -/
def triggers (optimized : Bool) (step : VerificationStep) : Bool :=
  if optimized then step.releaseTrigger else step.risk == "critical"

/-- The second escalation, by what is selected. -/
def triggered (project : Project) (steps : Steps) (gates : GateConfig) (preserve : Bool) (required : List String)
    (level : Level) (reason : String) (selected : Steps) : Except String (Level × String × Steps) :=
  if level = .affected ∧ selected.any (triggers gates.optimized) = true then do
    let selected ← completed steps preserve required (escalated project steps gates.optimized preserve selected)
    return (.release, if gates.optimized then "affected proof explicitly requires release"
      else "affected proof is classified critical", selected)
  else .ok (level, reason, selected)

/-- `select_verification_steps` -/
def selectVerificationSteps (project : Project) (steps : Steps) (gates : GateConfig) (preserve : Bool) (request : Request) :
    Except String Selection := do
  let requested ← readLevel request.level
  let changed := changedOf request.changedPaths
  let required := fromKeys request.requiredProofIds
  let missing := required.filter fun proofId => ((indexed steps).lookup proofId).isNone
  if missing ≠ [] then
    .error ("required proofs are unavailable: " ++ ", ".intercalate (missing.insertionSort (· ≤ ·)))
  else do
    let draft ← draft project steps gates preserve requested changed
    let selected := if preserve = true ∧ draft.level = .release ∧ changed ≠ [] then
      preserved project steps changed draft.selected else draft.selected
    let selected ← completed steps preserve required selected
    let (level, reason, selected) ← triggered project steps gates preserve required draft.level draft.reason selected
    let (selected, reasons) ← withChangedTests project steps gates changed level (selected, draft.reasons)
    return {
      requestedLevel := requested
      level
      steps := selected
      changedPaths := changed
      mappedPaths := draft.mapped
      unmappedPaths := draft.unmapped
      proofIds := fromKeys ((selected.map (·.proofId)).filter (· != ""))
      forcedReleaseReason := reason
      selectionReasons := objectOf (selected.map fun step => (step.proofId, (reasons.lookup step.proofId).getD
        [if level = .release then "release" else "prerequisite_or_required"])) }

end AutoAgents.Verification
