import AutoAgents.StorePrograms

/-! The phases of a work item. One step reads the work item and its contract, asks a model, a verifier or
git, and ends in the transactions that move the work item on; everything it learns from outside the
database is in what it has observed. -/

namespace AutoAgents

open Base
open Git (Path Commit Tree)

open Program

/-! ### What a step observes -/

/-- The configuration the controller reads. -/
structure Config where
  approvals : List Gate := []
  providers : List String := []
  parallel : Bool := false
  workers : Nat := 1
  taskLimit : Option Nat := none

/-- How commands of checks are read: the targets they name, whether they are known test runs, and the
interpreter they are bound to. -/
structure Commands where
  targets : String → List Target
  runs : String → Bool
  bind : String → String

/-- The release proof that `enqueue` finds or prepares. -/
inductive Deferred
  | found (id : String)
  | fresh (workflow id : String) (source : Commit) (specs : List VerificationSpec)

structure Observed where
  commands : Commands
  reply : Except ControlError Reply
  /-- The operation whose receipt the step consumes. -/
  operation : OperationId
  head : Commit
  candidate : Except ControlError Candidate
  configured : List VerificationSpec := []
  targetsReady : Except ControlError Unit := .ok ()
  audit : Except ControlError Unit := .ok ()
  documents : Reply → Except ControlError Reply
  hashes : List Path → Except ControlError Tree
  manifest : Option String → Except ControlError (Option Manifest)
  action : Except ControlError Unit := .ok ()
  rebuild : Bool := false
  outcome : Except ControlError Unit := .ok ()
  report : Except ControlError Report
  /-- The operation of a check, a persistence action or a delivery. -/
  effectOperation : OperationId
  verifiedHead : Option Commit := none
  /-- The observed source before the model is asked, and after. -/
  sourceSeal : Tree
  sourceSealAfter : Tree
  evidence : List Path → Except ControlError Unit
  failedChecks : Option OperationId := none
  delivery : Except ControlError Delivery
  deferred : Option Deferred := none
  completedTasks : Nat := 0
  fresh : List String := []

/-! ### Compilation of declared checks -/

def modelOutput (message : String) : ControlError := ⟨"model_output", message, .model⟩

/-- The extensions of files that no check may declare as its output. -/
def sourceExtensions : List String :=
  [".py", ".ts", ".tsx", ".js", ".jsx", ".sh", ".go", ".rs", ".c", ".cc", ".cpp", ".h", ".java", ".rb", ".cs"]

/-- `Path(name).suffix.lower()`. -/
def suffix (name : Path) : String :=
  match name.getLast? with
  | none => ""
  | some part =>
    match (part.toList.reverse.span (· != '.')) with
    | (tail, _ :: rest) =>
        if tail.isEmpty || rest.isEmpty then ""
        else String.ofList ('.' :: tail.reverse.map Char.toLower)
    | _ => ""

def mutableSource (targets : List Target) (name : Path) : Bool :=
  targets.any (·.path == name) || sourceExtensions.contains (suffix name) ||
    (name.getLast?.any fun part =>
      ["pyproject.toml", "package.json", "package-lock.json", "tsconfig.json"].contains part)

def compileCheck (commands : Commands) (value : RawCheck) : Except ControlError VerificationSpec :=
  let targets := if value.targets = [] then commands.targets value.command else value.targets
  if blank value.command = true then .error (modelOutput "Missing verification command")
  else if value.purpose = "behavior" ∧ commands.runs value.command = false then
    .error (modelOutput "Behavior checks need a supported test runner and exact targets")
  else if targets.any (fun target => target.path.head? == some "" || target.path.contains "..") = true then
    .error (modelOutput "Verification target leaves the workspace")
  else if value.purpose ∉ ["behavior", "environment", "artifact"] then
    .error (modelOutput "Check purpose must be exactly behavior, environment or artifact; put explanation in a separate field")
  else if value.outputs.any (fun name => !productPath name) = true then
    .error (modelOutput "Declare exact workspace output artifact paths")
  else if value.outputs.any (mutableSource targets) = true then
    .error (modelOutput "Test sources cannot be mutable output artifacts")
  else DB.readSpec { value with command := commands.bind value.command, targets }

/-- `compile_checks`. -/
def compileChecks (commands : Commands) (values : List RawCheck) :
    Except ControlError (List VerificationSpec) := values.mapM (compileCheck commands)

/-! ### Moves -/

/-- A new child that is moved on: to `RUNNING` in another phase, and back to `READY`. -/
def promote (child : String) (changes : Changes) : Program Unit := do
  let w ← work child
  let w ← transition w .running changes none []
  one (.transition w .ready {} none [])

/-- `advance`. -/
def advance (w : Work) (phase : Phase) (context : Context) (operation : Option OperationId) :
    Program Unit :=
  one (.transition w .ready { phase := some phase, context := some context, failure := some none }
    operation [])

/-- `wait_user`. -/
def waitUser (w : Work) (operation : OperationId) : Program Unit :=
  one (.transition w .waiting { context := some { w.context with waitingFor := some .user } } operation [])

/-- A new root that starts in `verify`. -/
def releaseRoot (workflow id goal : String) (source : Commit) (specs : List VerificationSpec)
    (authorization : Authorization) (inputs : Inputs) : Program Unit := do
  one (.createWorkflow workflow id .run goal source authorization inputs [] specs none 1)
  promote id { phase := some .verify }

/-- The end of `complete`: the release proof of a delivered root. -/
def enqueue (updated : Work) (deferred : Option Deferred) (revision : Commit) : Program Unit :=
  let link := fun (id : String) => one (.transition updated .completed
    { result := some { updated.result with releaseWorkId := some id } } none [])
  match deferred with
  | none => pure ()
  | some (.found id) => link id
  | some (.fresh workflow id source specs) => do
      releaseRoot workflow id "Release proof" source specs {}
        { releaseOnly := true, releaseRevision := some revision, releaseFull := true }
      link id

/-- `complete`. -/
def complete (w : Work) (result : WorkResult) (operation : Option OperationId)
    (deferred : Option Deferred) : Program Unit := do
  let updated ← transition w .completed
    { result := some { result with contract := some w.contract }, failure := some none } operation []
  match result.delivery with
  | some delivery =>
      if w.parent = none ∧ (w.mode = .run ∨ w.mode = .fix ∨ w.mode = .collab) then
        enqueue updated deferred delivery.revision
      else pure ()
  | none => pure ()

/-! ### Documents and the plan -/

/-- The approval a document phase asks for. -/
def phaseGate : Phase → Option Gate
  | .clarify => some .requirements
  | .prototype => some .prototype
  | .design => some .architecture
  | _ => none

/-- `RUN_PHASES[RUN_PHASES.index(phase) + 1]`. -/
def followingPhase (phase : Phase) : Except ControlError Phase :=
  if phase = .readme then .ok .verify
  else
    match runPhases.drop (runPhases.idxOf phase + 1) with
    | next :: _ => .ok next
    | [] => .error ⟨"engine_exception", "ValueError", .engine⟩

/-- The depth-first search of `validate_plan`, which returns the tasks it has left. -/
def visitTask (tasks : List Task) : Nat → List String → List String → String →
    Except ControlError (List String)
  | 0, _, _, _ => .error (modelOutput "Task dependencies contain a cycle")
  | depth + 1, active, visited, identity =>
      if identity ∈ active then .error (modelOutput "Task dependencies contain a cycle")
      else if identity ∈ visited then .ok visited
      else
        match tasks.find? (·.taskId == identity) with
        | none => .error ⟨"engine_exception", "KeyError", .engine⟩
        | some task => do
          let visited ← task.dependsOn.foldlM (visitTask tasks depth (identity :: active)) visited
          pure (identity :: visited)

/-- `validate_plan`. -/
def validatePlan (tasks : List Task) : Except ControlError Unit := do
  let _ ← (tasks.map (·.taskId)).foldlM (visitTask tasks (tasks.length + 1) []) []
  if tasks.any (fun task => blank task.goal) = true then .error (modelOutput "Task needs a bounded goal")
  else if tasks.any (fun task => task.paths.isEmpty || task.paths.any fun p => !productPath p) = true then
    .error (modelOutput "Task path leaves the workspace")
  else pure ()

/-- A task of a plan, with its checks compiled. -/
def planTask (commands : Commands) (ids : List String) (task : Task) : Except ControlError Task :=
  if task.dependsOn.any (fun d => !ids.contains d || d == task.taskId) = true then
    .error (modelOutput "Invalid task dependency")
  else do
    let checks ← compileChecks commands task.checks
    if checks = [] then .error (modelOutput "Every task requires behavioral checks")
    else if checks.any (·.proves) = false then .error (modelOutput "Every task requires a behavior proof")
    else pure { task with checks := checks.map (·.toDict) }

theorem Contract.goal_kept (c : Contract) : blank c.goal = false := c.goal_given

theorem Contract.scope_kept (c : Contract) : c.scope.all relative = true := c.scope_relative

def stepPlan (o : Observed) (w : Work) (c : Contract) (proposal : Reply) : Except ControlError (Program Unit) := do
  let declared ← compileChecks o.commands proposal.checks
  let checks := (declared ++ o.configured).eraseDups
  let ids := proposal.tasks.map (·.taskId)
  if proposal.tasks = [] ∨ checks = [] then .error (modelOutput "Plan needs tasks and release verification")
  else if ¬ ids.Nodup then .error (modelOutput "Task identities must be unique")
  else do
    let tasks ← proposal.tasks.mapM (planTask o.commands ids)
    if checks.any (·.proves) = false then .error (modelOutput "Release needs a required behavior proof")
    else do
      validatePlan tasks
      o.audit
      let candidate ← o.candidate
      let state := { w.context with tasks, doneTasks := [], candidate := some candidate }
      pure (one (.bindContract w { c with checks, goal_given := c.goal_kept, scope_relative := c.scope_kept } (some .providerResearch) (some state) o.operation))

/-- The end of a document phase. -/
def stepArtifacts (cfg : Config) (o : Observed) (w : Work) (c : Contract) (proposal : Reply) :
    Except ControlError (Program Unit) := do
  let proposal ← o.documents proposal
  let candidate ← o.candidate
  let state := { w.context with
    frontend := if w.phase = .clarify then proposal.frontend else w.context.frontend
    candidate := some candidate }
  if c.inputs.variantOnly.isSome = true then
    pure (complete w { candidate, artifacts := proposal.artifacts } o.operation none)
  else if w.mode = .providerResolve then
    pure (advance w (if c.checks = [] then .review else .verify) state o.operation)
  else do
    let next ← followingPhase w.phase
    match phaseGate w.phase with
    | none => pure (advance w next state o.operation)
    | some gate =>
      if gate = .prototype ∨ gate ∈ cfg.approvals ∧ c.authorization.autoApprove = false then
        pure (one (.transition w .waiting
          { phase := some next
            context := some { state with
              waitingFor := some .approval, approval := some gate, approvalPhase := some w.phase,
              approvalArtifacts := proposal.artifacts } }
          o.operation []))
      else do
        let hashes ← o.hashes proposal.artifacts
        let approvals := (gate, hashes) :: state.approvals.filter fun entry => entry.1 != gate
        pure (advance w next { state with approvals } o.operation)

/-- The reply of a document phase. -/
def stepReply (cfg : Config) (o : Observed) (w : Work) (c : Contract) : Except ControlError (Program Unit) := do
  let proposal ← o.reply
  if proposal.questions ≠ [] then pure (waitUser w o.operation)
  else if w.phase = .plan then stepPlan o w c proposal
  else stepArtifacts cfg o w c proposal

/-- The document phases: those before `implement`, `readme` and `research`. -/
def stepDocument (cfg : Config) (o : Observed) (w : Work) (c : Contract) : Except ControlError (Program Unit) :=
  if w.phase = .prototype ∧ w.context.frontend = false ∧ c.inputs.variantOnly = none then
    .ok (advance w .design w.context none)
  else if w.phase = .plan then do
    o.targetsReady
    stepReply cfg o w c
  else stepReply cfg o w c

/-! ### Classification and implementation -/

/-- A fix whose verification is bound: the model may only add a missing scope. -/
def classifyBound (o : Observed) (w : Work) (c : Contract) (proposal : Reply) : Except ControlError (Program Unit) :=
  let state := { w.context with persistenceChange := proposal.persistenceChange }
  if (∃ command ∈ proposal.verificationCommand, command ≠ "" ∧ command ∉ c.checks.map (·.command)) then
    .error (modelOutput "Classification cannot change a bound command")
  else if proposal.checksGiven = true ∧ proposal.checks ≠ c.checks.map (·.toDict) then
    .error (modelOutput "Classification cannot change bound verification")
  else if c.scope = [] ∧ proposal.paths ≠ [] then do
    let bound ← Contract.build c.workflowId c.workId c.mode c.goal c.source c.authorization proposal.paths
      c.checks c.inputs c.parentContract
    pure (one (.bindContract w bound (some .implement) (some state) o.operation))
  else .ok (advance w .implement state o.operation)

/-- A fix whose verification the model proposes. -/
def classifyFresh (o : Observed) (w : Work) (c : Contract) (proposal : Reply) : Except ControlError (Program Unit) := do
  let state := { w.context with persistenceChange := proposal.persistenceChange }
  let command := proposal.verificationCommand.getD ""
  let checks ← compileChecks o.commands
    (if proposal.checks ≠ [] then proposal.checks else if command ≠ "" then [{ command }] else [])
  if checks = [] then .error (modelOutput "Classification needs a verification contract")
  else if checks.any (·.proves) = false then .error (modelOutput "Fix needs a required behavior proof")
  else do
    let bound ← Contract.build c.workflowId c.workId c.mode c.goal c.source c.authorization proposal.paths
      checks c.inputs c.parentContract
    pure (one (.bindContract w bound (some .implement) (some state) o.operation))

def stepClassify (o : Observed) (w : Work) (c : Contract) : Except ControlError (Program Unit) := do
  let proposal ← o.reply
  match proposal.decision with
  | "need_user" => pure (waitUser w o.operation)
  | "not_bug" =>
      pure (advance w (if c.checks = [] then .review else .verify)
        { w.context with disposition := some "not_bug", classification := some proposal } o.operation)
  | "run_iteration" =>
      pure (one (.child w (o.fresh.headD "") .run
        (if proposal.summary = "" then c.goal else proposal.summary) o.head {} [] [] 15 o.operation))
  | "fix" =>
      if c.scope = [] ∧ proposal.paths = [] then
        .error (modelOutput "Classification requires a bounded source scope")
      else if c.checks = [] then classifyFresh o w c proposal
      else classifyBound o w c proposal
  | _ => .error (modelOutput "Unknown classification decision")

/-- The tasks of a plan that no child has done. -/
def pendingTasks (state : Context) : List Task :=
  state.tasks.filter fun task => !state.doneTasks.contains task.taskId

/-- `a == b`, or one is below the other. -/
def overlaps (a b : Path) : Bool := a == b || below b a || below a b

/-- The tasks that start together: in order, those whose scope touches none chosen before. -/
def chooseBatch (available : Nat) : List Task → List Task → List Path → List Task
  | [], batch, _ => batch
  | task :: ready, batch, paths =>
      if task.paths = [] ∨ (task.paths.any fun a => paths.any (overlaps a)) = true then
        chooseBatch available ready batch paths
      else if available ≤ batch.length + 1 then batch ++ [task]
      else chooseBatch available ready (batch ++ [task]) (paths ++ task.paths)

/-- The child of one planned task. -/
def startTask (o : Observed) (w : Work) (task : Task) : Except ControlError (Program Unit) := do
  let id := o.fresh.headD ""
  let checks ← compileChecks o.commands task.checks
  pure do
    one (.child w id .fix task.goal o.head
      { plannedTask := some task.taskId, persistenceChange := task.persistenceChange } task.paths checks 15
      none)
    promote id { phase := some (if task.classificationRequired then .classify else .implement)
                 context := some { taskId := some task.taskId } }

/-- The tasks that start in parallel, when more than one may. -/
def readyBatch (cfg : Config) (o : Observed) (ready : List Task) : List Task :=
  if cfg.parallel && decide (1 < cfg.workers) then
    chooseBatch ((cfg.taskLimit.map fun limit => min cfg.workers (limit - o.completedTasks)).getD cfg.workers)
      ready [] []
  else []

/-- The pending tasks whose dependencies are done. -/
def readyTasks (state : Context) : List Task :=
  (pendingTasks state).filter fun task => task.dependsOn.all state.doneTasks.contains

/-- `implement` of a run: the next planned tasks. -/
def stepSchedule (cfg : Config) (o : Observed) (w : Work) : Except ControlError (Program Unit) :=
  if pendingTasks w.context = [] then .ok (advance w .readme w.context none)
  else if (∃ limit ∈ cfg.taskLimit, limit ≤ o.completedTasks) then
    .ok (one (.transition w .waiting
      { context := some { w.context with waitingFor := some .taskLimit } } none []))
  else
    match readyTasks w.context with
    | [] => .error ⟨"plan_cycle", "Task graph has no executable work", .state⟩
    | task :: rest =>
        let batch := readyBatch cfg o (task :: rest)
        if 1 < batch.length then .ok (one (.batch w (o.fresh.zip batch) o.head))
        else startTask o w task

def stepImplement (o : Observed) (w : Work) (c : Contract) : Except ControlError (Program Unit) := do
  let proposal ← o.reply
  let candidate ← o.candidate
  if candidate.paths = [] then .error ⟨"no_progress", "Implementation produced no change", .verification⟩
  else do
    let manifest ← o.manifest
      ((c.inputs.persistenceChange.or w.context.persistenceChange).or proposal.persistenceChange)
    pure (advance w (if manifest.isSome then .persistence else .verify)
      { w.context with
        candidate := some candidate, implementation := some proposal, persistenceManifest := manifest }
      o.operation)

def stepPersistence (o : Observed) (w : Work) : Except ControlError (Program Unit) :=
  match w.context.persistenceManifest with
  | none => .error ⟨"engine_exception", "KeyError", .engine⟩
  | some manifest => do
    o.action
    if o.rebuild = true ∧ w.context.persistenceApproval ≠ some manifest then
      pure (one (.transition w .waiting
        { context := some { w.context with
            waitingFor := some .approval, approval := some .persistenceReset,
            approvalPhase := some .persistence, approvalFingerprint := some manifest } } none []))
    else do
      o.outcome
      pure (advance w .verify w.context (some o.effectOperation))

/-! ### Verification, review and delivery -/

/-- The outputs of all checks of a contract. -/
def Contract.outputs (c : Contract) : List Path := (c.checks.flatMap (·.outputs)).dedup

def Contract.hasArtifacts (c : Contract) : Bool := c.checks.any (·.purpose == .artifact)

def stepVerify (o : Observed) (w : Work) (c : Contract) : Except ControlError (Program Unit) := do
  let report ← o.report
  let state := { w.context with verification := some report }
  if c.inputs.releaseOnly = true then
    if c.hasArtifacts = true then pure (advance w .artifactVerify state (some o.effectOperation))
    else
      pure (complete w { verification := some report, verifiedRevision := o.verifiedHead }
        (some o.effectOperation) none)
  else if w.mode = .run then
    pure (advance w (if w.context.frontend then .visualJudge else .artifactVerify) state
      (some o.effectOperation))
  else pure (advance w .review state (some o.effectOperation))

def proofSourceChanged (message : String) (category : Category) : ControlError :=
  ⟨"proof_source_changed", message, category⟩

/-- A report that may be finalized: `Path(name).suffix.lower() in {".json", ".md"}`. -/
def reportName (name : Path) : Bool := suffix name == ".json" || suffix name == ".md"

def stepFinalize (o : Observed) (w : Work) : Except ControlError (Program Unit) :=
  match w.context.verification with
  | none => .error ⟨"engine_exception", "KeyError", .engine⟩
  | some report =>
    let immutable := report.outputs.keys.filter fun name => !w.context.finalizePaths.contains name
    if o.sourceSeal ≠ report.sourceHash then
      .error (proofSourceChanged "Verified source changed before evidence finalization" .verification)
    else do
      let _ ← o.reply
      let hashes ← o.hashes immutable
      if o.sourceSealAfter ≠ report.sourceHash ∨ (immutable.any fun p => hashes.lookup p != report.outputs.lookup p) = true then
        .error (proofSourceChanged "Evidence finalizer changed verified source or captured evidence" .model)
      else do
        let candidate ← o.candidate
        pure (advance w (w.context.finalizeReturn.getD .review)
          { w.context with candidate := some candidate } o.operation)

/-- `verify_review`. -/
def verifyReview (proposal : Reply) (candidate : Option Candidate) : Except ControlError Unit :=
  if proposal.decision ≠ "pass" then .error ⟨"review_failed", proposal.reason, .verification⟩
  else if ((candidate.map (·.paths)).getD []).any (below ["tests"]) = true ∧
      proposal.testChangesValid = false then
    .error ⟨"proof_review", "Test changes require explicit independent assessment", .verification⟩
  else .ok ()

def stepReview (o : Observed) (w : Work) (c : Contract) : Except ControlError (Program Unit) := do
  let proposal ← o.reply
  if w.phase = .review ∧ proposal.decision = "finalize" then
    if proposal.evidencePaths = [] ∨
        (proposal.evidencePaths.any fun p => !c.outputs.contains p || !reportName p) = true then
      .error ⟨"evidence_contract", "Finalization may modify only declared output reports", .model⟩
    else
      pure (advance w .finalize
        { w.context with finalizePaths := proposal.evidencePaths, finalizeReview := some proposal }
        o.operation)
  else do
    verifyReview proposal (if w.phase = .review then w.context.candidate else none)
    if w.context.disposition = some "not_bug" then
      pure (complete w { resolution := some "not_bug", verification := w.context.verification }
        o.operation none)
    else if w.phase = .visualJudge then
      if proposal.evidenceRefs = [] then
        .error ⟨"visual_evidence", "Visual review requires actual evidence", .verification⟩
      else do
        o.evidence proposal.evidenceRefs
        pure (advance w .artifactVerify { w.context with visualReview := some proposal } o.operation)
    else if w.phase = .acceptanceReview then
      pure (advance w .deliver { w.context with acceptanceReview := some proposal } o.operation)
    else pure (advance w .artifactVerify { w.context with review := some proposal } o.operation)

def stepArtifactVerify (o : Observed) (w : Work) (c : Contract) : Except ControlError (Program Unit) :=
  if c.hasArtifacts = false then .ok (advance w .deliver w.context none)
  else
    match w.context.verification with
    | none => .error ⟨"engine_exception", "KeyError", .engine⟩
    | some report =>
      if o.sourceSeal ≠ report.sourceHash then
        .error (proofSourceChanged "Source changed after verification" .verification)
      else
        match o.report with
        | .ok checked =>
            .ok (advance w .deliver { w.context with artifactVerification := some checked }
              (some o.effectOperation))
        | .error e =>
            let paths := c.outputs.filter reportName
            if e.category ≠ .verification ∨ paths = [] ∨ 2 ≤ w.context.artifactCorrections then .error e
            else
              .ok (advance w .finalize
                { w.context with
                  finalizePaths := paths
                  finalizeReview := w.context.visualReview.or w.context.review
                  finalizeReturn := some .artifactVerify
                  artifactCorrections := w.context.artifactCorrections + 1 }
                o.failedChecks)

/-- Work that a diagnosis delegates. A fix takes over the scope and the checks of its parent; with checks
it starts in `implement`. -/
def delegate (o : Observed) (w : Work) (c : Contract) (foreignRepository : Bool) (mode : Mode)
    (goal : String) : Except ControlError (Program Unit) :=
  if foreignRepository = true then .error (modelOutput "Foreign repository route is not authorized")
  else if goal = "" then .error (modelOutput "Delegated work needs a concrete goal")
  else if mode = .fix then
    .ok do
      one (.child w (o.fresh.headD "") .fix goal o.head {} c.scope c.checks 15 o.operation)
      if c.checks ≠ [] then promote (o.fresh.headD "") { phase := some .implement } else .pure ()
  else .ok (one (.child w (o.fresh.headD "") mode goal o.head {} [] [] 15 o.operation))

/-- `resume` of a blocked child. -/
def resumeChild (o : Observed) (w child : Work) : Except ControlError (Program Unit) :=
  if child.parent ≠ some w.id ∨ child.status ≠ .blocked then
    .error (modelOutput "Only this parent's blocked child can resume")
  else if child.failureCategory ∈ [some .budget, some .reconciliation, some .migration] then
    .error ⟨"child_blocked", "Child requires operator reconciliation", .state⟩
  else
    .ok do
      one (.transition child .ready { failure := some none } none [])
      one (.transition w .waiting
        { context := some { w.context with child := some child.id, waitingFor := some .child } }
        o.operation [])

/-- `diagnose` of a collab. -/
def stepDiagnose (o : Observed) (db : DB) (w : Work) (c : Contract) : Except ControlError (Program Unit) := do
  let proposal ← o.reply
  match proposal.action with
  | "need_user" => pure (waitUser w o.operation)
  | "resume" => do
      let child ← db.work proposal.childId
      resumeChild o w child
  | "fix" => delegate o w c proposal.foreignRepository .fix proposal.summary
  | "run" => delegate o w c proposal.foreignRepository .run proposal.spec
  | "acceptance" => pure (advance w .acceptance w.context o.operation)
  | _ => .error (modelOutput "Unknown diagnostic action")

def stepAcceptance (o : Observed) (w : Work) (c : Contract) : Except ControlError (Program Unit) := do
  let proposal ← o.reply
  if proposal.accepted = false ∨ proposal.evidenceRefs = [] then
    .error ⟨"acceptance", "Original goal acceptance is incomplete", .verification⟩
  else do
    o.evidence proposal.evidenceRefs
    let proposed ← compileChecks o.commands proposal.checks
    if c.checks ≠ [] ∧ proposed ≠ [] ∧ proposed ≠ c.checks then
      .error (modelOutput "Acceptance cannot replace the original bound checks")
    else if c.checks = [] ∧ proposed = [] then
      .error ⟨"acceptance", "Acceptance requires executable behavior proof", .verification⟩
    else do
      let report ← o.report
      pure do
        one (.consume o.effectOperation)
        advance w .acceptanceReview
          { w.context with acceptance := some proposal, verification := some report } o.operation

/-- What a completed work item keeps of its proofs. -/
def proofs (state : Context) : WorkResult where
  verification := state.verification
  artifactVerification := state.artifactVerification

def stepDeliver (cfg : Config) (o : Observed) (w : Work) (c : Contract) : Except ControlError (Program Unit) :=
  if c.inputs.releaseOnly = true then
    .ok (complete w { proofs w.context with verifiedRevision := o.verifiedHead } none none)
  else if w.mode = .run ∧ w.context.verification = none then
    .error ⟨"completion", "Release verification is missing", .state⟩
  else if w.mode = .collab ∧ w.context.acceptanceReview = none then
    .error ⟨"completion", "Semantic acceptance is missing", .state⟩
  else if (c.checks.any fun spec => spec.purpose == .artifact && spec.required) = true ∧
      w.context.artifactVerification = none then
    .error ⟨"completion", "Required artifact verification is missing", .state⟩
  else if w.mode = .run ∧ w.parent = none ∧ Gate.release ∈ cfg.approvals ∧
      c.authorization.autoApprove = false ∧ (w.context.approvals.any (·.1 == .release)) = false then
    .ok (one (.transition w .waiting
      { context := some { w.context with
          waitingFor := some .approval, approval := some .release, approvalPhase := some .verify,
          approvalArtifacts := ((w.context.verification.map (·.outputs.keys)).getD []) } } none []))
  else do
    let candidate ← o.candidate
    if w.parent.isSome = true then
      pure (complete w { proofs w.context with candidate := some candidate } none none)
    else do
      let delivery ← o.delivery
      pure (complete w { proofs w.context with delivery := some delivery } (some o.effectOperation) o.deferred)

/-- `step`: what a running work item does next. -/
def Work.step (w : Work) (cfg : Config) (o : Observed) (db : DB) (c : Contract) :
    Except ControlError (Program Unit) :=
  match w.phase with
  | .clarify | .prototype | .design | .plan | .providerResearch | .readme | .research =>
      stepDocument cfg o w c
  | .classify => stepClassify o w c
  | .implement => if w.mode = .run then stepSchedule cfg o w else stepImplement o w c
  | .persistence => stepPersistence o w
  | .verify => stepVerify o w c
  | .finalize => stepFinalize o w
  | .review | .visualJudge | .acceptanceReview => stepReview o w c
  | .artifactVerify => stepArtifactVerify o w c
  | .diagnose => stepDiagnose o db w c
  | .acceptance => stepAcceptance o w c
  | .deliver => stepDeliver cfg o w c
  | .other name => .error ⟨"phase", "Unknown phase: " ++ name, .engine⟩

end AutoAgents
