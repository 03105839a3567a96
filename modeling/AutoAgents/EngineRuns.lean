import AutoAgents.EnginePhases

/-! The engine as a system of threads over the store: `start`, `resume` and the rounds of `drive`, with
the decisions of an operator. A round that fails leaves its error to `drive`, which reads the work item
again before it acts on it. -/

namespace AutoAgents

open Base Program
open Git (Path Commit Tree)

/-! ### Starting and resuming -/

/-- The checks of `--verify-command`. -/
def commandChecks (command : String) : Except ControlError (List VerificationSpec) :=
  if command = "" then .ok [] else (DB.readSpec { command }).map fun spec => [spec]

/-- The categories of failure that only an operator lifts. -/
def heldCategories : List Category := [.reconciliation, .budget, .migration]

/-- `failure.get("category") not in {"reconciliation", "budget", "migration"}`. -/
def Work.retried (w : Work) : Bool := w.failureCategory.all fun c => !heldCategories.contains c

/-- The operations that a retry of the work item consumes. -/
def DB.retries (db : DB) (w : Work) : List OperationId :=
  if w.failureCategory = some .provider ∨ w.failureCategory = some .environment then
    (db.operations.rows.filter fun op => op.work == w.id && !op.consumed && op.state == .failed).map (·.id)
  else []

/-- Whether a work item waits for work it owns. -/
def Context.ownsWaiting (c : Context) : Bool :=
  c.waitingFor == some .child || c.waitingFor == some .children

/-- A delivery whose journal was completed: its receipt is settled and its owner may go on. -/
def recover (item : OperationId × Delivery) : Program Unit :=
  .read fun db =>
    match db.operations.find item.1 with
    | none => .pure ()
    | some op => do
        one (.settle op.id (.delivery item.2) .confirmed)
        let owner ← work op.work
        if owner.failureCategory = some .reconciliation then
          one (.transition owner .ready { failure := some none } none [])
        else .pure ()

/-- The explicit provider is written to every live work item of the workflow. -/
def switchProvider (root : Work) : Option String → Program Work
  | none => .pure root
  | some provider => do
      let nodes ← Prog.read fun db => .pure (db.works.rows.filter fun node =>
        node.workflow == root.workflow && !node.status.terminal &&
          node.context.provider != some provider)
      nodes.forM fun node => one
        (.transition node node.status { context := some { node.context with provider := some provider } }
          none [])
      work root.id

def liftTaskLimit (root : Work) : Program Work :=
  if root.context.waitingFor = some .taskLimit then
    transition root .ready { context := some { root.context with waitingFor := none } } none []
  else .pure root

/-- One child of a parent, put on the queue. -/
def ownChild (db : DB) (parent : Work) (found : List Work × List String) (id : String) :
    Except ControlError (List Work × List String) :=
  if id ∈ found.2 then .error ⟨"work_cycle", "Owned work graph contains a cycle", .engine⟩
  else do
    let child ← db.work id
    if child.parent ≠ some parent.id then
      .error ⟨"child_authority", "Child belongs to another parent", .state⟩
    else .ok (child :: found.1, found.2 ++ [id])

/-- The work items below a root. Each round takes one row that was not taken before. -/
def owned (db : DB) : Nat → List Work → List String → Except ControlError (List String)
  | _, [], selected => .ok selected
  | 0, _ :: _, _ => .error ⟨"work_cycle", "Owned work graph contains a cycle", .engine⟩
  | rounds + 1, parent :: queue, selected => do
      let ids := if parent.context.children ≠ [] then parent.context.children else parent.context.child.toList
      let found ← ids.foldlM (ownChild db parent) (queue, selected)
      owned db rounds found.1 found.2

/-- A work item that waits for its own work goes back to waiting. -/
def waitAgain (w : Work) : Program Unit :=
  if w.status = .ready ∧ w.context.ownsWaiting = true then one (.transition w .waiting {} none [])
  else .pure ()

def retry (db : DB) (w : Work) : Program Unit := do
  let w ← transition w .ready { failure := some none } none (db.retries w)
  if w.context.ownsWaiting = true then one (.transition w .waiting {} none []) else .pure ()

/-- A work item below the root that stopped. -/
def retryOwned (id : String) : Program Unit :=
  .read fun db =>
    match db.work id with
    | .error e => .fail e
    | .ok node =>
        if (node.status = .blocked ∨ node.status = .running) ∧ node.retried = true then retry db node
        else .pure ()

def retryRoot (root : Work) : Program Unit :=
  match root.status with
  | .blocked =>
      if root.retried = true then
        .read fun db => do
          let root ← transition root .ready { failure := some none } none (db.retries root)
          waitAgain root
      else .pure ()
  | .running => do
      let root ← transition root .ready {} none []
      waitAgain root
  | _ => waitAgain root

/-- `resume`, up to its call of `drive`. -/
def resume (id : String) (provider : Option String) (recovered : List (OperationId × Delivery)) :
    Program Unit := do
  let w ← work id
  let root ← Prog.read fun db =>
    match w.parent, db.workflows.find w.workflow with
    | some _, some workflow => .ofExcept (db.work workflow.root)
    | _, _ => .pure w
  recovered.forM recover
  let root ← work root.id
  if root.status.terminal = true then .pure ()
  else do
    let root ← switchProvider root provider
    let root ← liftTaskLimit root
    let selected ← Prog.read fun db => .ofExcept (owned db db.works.rows.length [root] [root.id])
    (selected.filter fun id => id != root.id).forM retryOwned
    retryRoot root

/-! ### The rounds of `drive` -/

def block (w : Work) (failure : Option Failure) : Program Unit :=
  one (.transition w .blocked { failure := some failure } none [])

/-- The errors of a model that are not answered by asking it again. -/
def finalCodes : List String :=
  ["readonly", "stage_scope", "worker_git", "approved_contract", "proof_source_changed", "source_changed"]

/-- The operations of a work item of one kind that are not consumed. -/
def DB.openOperations (db : DB) (w : Work) : List Operation :=
  db.operations.rows.filter fun op => op.work == w.id && !op.consumed

/-- The error of a fix that is answered by another implementation. -/
def Work.repaired (w : Work) (e : ControlError) (allowed : Bool) : Bool :=
  e.category == .verification && w.mode == .fix && (w.phase == .verify || w.phase == .review) && allowed

/-- The error of a model that is answered by asking it again. -/
def Work.asksAgain (w : Work) (e : ControlError) : Bool :=
  e.category == .model && !finalCodes.contains e.code && decide (w.context.protocolRetries < 2)

/-- `except ControlError`: what becomes of an error of a step. -/
def onError (cfg : Config) (provider : Option String) (allowed : Bool) (db : DB) (latest : Work)
    (e : ControlError) : Program Unit :=
  let asked := (db.openOperations latest).filter (·.kind == .model latest.phase)
  if (e.code = "provider_quota" ∨ e.code = "provider_unavailable") ∧ provider = some "codex-fuli0110" ∧
      "codex" ∈ cfg.providers then do
    (asked.filter (·.state == .failed)).forM fun op => one (.consume op.id)
    one (.transition latest .ready { context := some { latest.context with provider := some "codex" } }
      none [])
  else if latest.repaired e allowed = true then do
    ((db.openOperations latest).filter (·.state.settled)).forM fun op => one (.consume op.id)
    one (.transition latest .ready
      { phase := some .implement, context := some { latest.context with disposition := none } } none [])
  else if latest.asksAgain e = true then
    one (.transition latest .ready
      { context := some { latest.context with protocolRetries := latest.context.protocolRetries + 1 } }
      ((asked.filter (·.state.settled)).getLast?.map (·.id)) [])
  else block latest (some ⟨e, none⟩)

/-- `child["context"]["task_id"]`. -/
def finishedTask (child : Work) : Except ControlError String :=
  match child.context.taskId with
  | some task => .ok task
  | none => .error ⟨"engine_exception", "'task_id'", .engine⟩

/-- `done_tasks`, once a child of a run has completed. -/
def doneWith (w child : Work) : Except ControlError (List String) :=
  if w.mode = .run then (finishedTask child).map fun task => w.context.doneTasks ++ [task]
  else .ok w.context.doneTasks

/-- A child has stopped. -/
def childDone (candidate : Except ControlError Candidate) (w child : Work) : Program Unit :=
  match child.status with
  | .completed => do
      let candidate ← Prog.ofExcept candidate
      let done ← Prog.ofExcept (doneWith w child)
      one (.transition w .ready
        { phase := some
            (if w.mode = .collab ∨ w.mode = .fix ∧ w.phase = .classify then .acceptance else w.phase)
          context := some { w.context with
            child := none, waitingFor := none, candidate := some candidate
            childResults := w.context.childResults ++ [child.id]
            doneTasks := done } }
        none [])
  | .blocked => block w (child.failure.map fun f => { f with childId := some child.id })
  | _ => .pure ()

/-- All children of a batch have stopped. -/
def childrenDone (candidate : Except ControlError Candidate) (w : Work) (children : List Work) :
    Program Unit :=
  if children.all (·.status == .completed) = true then do
    let tasks ← Prog.ofExcept (children.mapM finishedTask)
    let candidate ← Prog.ofExcept candidate
    one (.transition w .ready
      { context := some { w.context with
          children := [], waitingFor := none, candidate := some candidate
          doneTasks := w.context.doneTasks ++ tasks } }
      none [])
  else
    match children.find? (·.status == .blocked) with
    | some child => block w (child.failure.map fun f => { f with childId := some child.id })
    | none => .pure ()

/-! ### Decisions of an operator -/

/-- `approve`: the pending approval, with the artifacts it covers and, for a prototype, the candidate
that was chosen. -/
def approve (w : Work) (hashes : Tree) (chosen : Option (List Path × Candidate)) : Program Unit :=
  match w.context.approval with
  | none => .fail ⟨"approval", "No pending approval", .state⟩
  | some gate =>
    if w.status ≠ .waiting ∨ w.context.waitingFor ≠ some .approval then
      .fail ⟨"approval", "No pending approval", .state⟩
    else
      one (.transition w .ready
        { context := some { w.context with
            waitingFor := none, approval := none
            approvalArtifacts := (chosen.map (·.1)).getD w.context.approvalArtifacts
            candidate := (chosen.map (·.2)).or w.context.candidate
            approvals := (gate, hashes) :: w.context.approvals.filter fun entry => entry.1 != gate
            persistenceApproval := if gate = .persistenceReset then w.context.approvalFingerprint
              else w.context.persistenceApproval } }
        none [])

/-- What a work item waits for that `decision_owner` selects for an answer, or for a rejection. -/
def pendingDecision (rejected : Bool) : Waiting := if rejected then .approval else .user

/-- `answer`, and `reject`, which goes back to the phase that asked for approval: of the work item whose
decision is pending. -/
def answer (w : Work) (rejected pending : Bool) : Program Unit :=
  if w.status ≠ .waiting ∨ w.context.waitingFor ≠ some (pendingDecision rejected) then
    .fail ⟨"selection", "Choose the work item with one pending decision", .state⟩
  else
    let context := { w.context with waitingFor := if pending then some .user else none }
    let changes : Changes :=
      if rejected then
        { phase := some (w.context.approvalPhase.getD w.phase)
          context := some { context with
            approvalPhase := none
            approvals := w.context.approvals.filter fun entry => some entry.1 != w.context.approval } }
      else { phase := some w.phase, context := some context }
    one (.transition w (if pending then .waiting else .ready) changes none [])

/-- An additional prototype, and the candidates as they stand after a rejection. -/
def generate (w : Work) (id goal variant : String) (source : Commit) (scope : Path) : Program Unit :=
  if w.status ≠ .waiting ∨ w.context.approval ≠ some .prototype then
    .fail ⟨"prototype", "Additional candidates require the prototype decision gate", .state⟩
  else one (.addon w id goal source [scope] { variantOnly := some variant } .prototype)

/-- The candidates of the prototype gate have changed. -/
def present (w : Work) (candidate : Option Candidate) : Program Unit :=
  one (.transition w .waiting
    { context := some { w.context with candidate := candidate.or w.context.candidate } } none [])

/-- `cancel`: every live work item of the workflow, the newest first. -/
def cancel (w : Work) : Program Unit := do
  let nodes ← Prog.read fun db => .pure (db.works.rows.filter fun node =>
    node.workflow == w.workflow && !node.status.terminal).reverse
  nodes.forM fun node => one (.transition node .cancelled {} none [])

/-- After an operation was reconciled: the work items that stopped for it go on, once none is left. -/
def reconciled (w : Work) : Program Unit :=
  .read fun db =>
    if (db.operations.rows.any fun op => op.state.unresolved && db.inWorkflow w.workflow op) = true then
      .pure ()
    else
      (db.works.rows.filter fun node => node.workflow == w.workflow && node.status == .blocked &&
          node.failureCategory == some .reconciliation).forM fun node =>
        one (.transition node .ready { failure := some none } none [])

/-! ### The system -/

inductive Move
  | start (workflow work : String) (mode : Mode) (goal : String) (source : Commit)
      (authorization : Authorization) (inputs : Inputs) (command : String) (maxCalls : Option Nat)
      (nodeLimit : Nat)
  | resume (work : String) (provider : Option String) (recovered : List (OperationId × Delivery))
  | run (work : String)
  | step (work : String) (observed : Observed)
  | handle (provider : Option String) (allowed : Bool)
  | child (work : String) (candidate : Except ControlError Candidate)
  | children (work : String) (candidate : Except ControlError Candidate)
  | ledger (call : Call)
  | approve (work : String) (hashes : Tree) (chosen : Option (List Path × Candidate))
  | answer (work : String) (rejected pending : Bool)
  | generate (work id goal variant : String) (source : Commit) (scope : Path)
  | present (work : String) (candidate : Option Candidate)
  | cancel (work : String)
  | archive (work : String)
  | restart (work : String)
  | reconciled (work : String)
  | fault (work : String) (error : ControlError)
  | verify (workflow id goal : String) (source : Commit) (specs : List VerificationSpec) (full : Bool)

/-- The program of a move, from the record of its work item. -/
def Move.onWork (cfg : Config) (db : DB) (w : Work) : Move → Program Unit
  | .run _ => if w.status = .ready then one (.transition w .running {} none []) else .pure ()
  | .step _ o =>
      if w.status = .running then
        match db.contract w.contract with
        | .error e => .fail e
        | .ok c =>
          match w.step cfg o db c with
          | .error e => .fail e
          | .ok program => program
      else .pure ()
  | .child _ candidate =>
      match w.status, w.context.waitingFor, w.context.child.bind db.works.find with
      | .waiting, some .child, some node => childDone candidate w node
      | _, _, _ => .pure ()
  | .children _ candidate =>
      if w.status = .waiting ∧ w.context.waitingFor = some .children then
        childrenDone candidate w (w.context.children.filterMap db.works.find)
      else .pure ()
  | .approve _ hashes chosen => AutoAgents.approve w hashes chosen
  | .answer _ rejected pending => AutoAgents.answer w rejected pending
  | .generate _ id goal variant source scope => AutoAgents.generate w id goal variant source scope
  | .present _ candidate =>
      if w.status = .waiting ∧ w.context.approval = some .prototype then AutoAgents.present w candidate
      else .pure ()
  | .cancel _ => AutoAgents.cancel w
  | .archive _ =>
      if w.status.terminal = true then
        one (.transition w w.status { context := some { archived := true } } none [])
      else .fail ⟨"retention", "Active or blocked progress cannot be discarded", .state⟩
  | .restart _ =>
      if w.status = .blocked then
        one (.transition w .cancelled { context := some { w.context with archived := true } } none [])
      else .fail ⟨"restart", "Only a blocked run can be restarted", .state⟩
  | .reconciled _ => AutoAgents.reconciled w
  | .fault _ error =>
      if w.status = .blocked ∨ w.status.terminal = true then .pure () else block w (some ⟨error, none⟩)
  | _ => .pure ()

/-- The work item a move is about. -/
def Move.subject : Move → Option String
  | .run id | .step id .. | .child id .. | .children id .. | .approve id .. | .answer id .. | .generate id ..
  | .present id .. | .cancel id | .archive id | .restart id | .reconciled id
  | .fault id .. => some id
  | _ => none

def Move.steps : Move → Bool
  | .step .. => true
  | _ => false

/-- A thread of the engine, with the record its step runs on. -/
abbrev EngineThread := Thread DB Call ControlError (Option Work)

/-- The program a move begins; `handle` goes on with the thread whose step has failed. -/
def Move.begin (cfg : Config) (move : Move) (db : DB) (thread : Option EngineThread) :
    Option EngineThread :=
  match move with
  | .start workflow id mode goal source authorization inputs command maxCalls nodeLimit =>
      match commandChecks command with
      | .error _ => none
      | .ok checks => some ⟨none, one (.createWorkflow workflow id mode goal source authorization
          { inputs with controlVersion := 2 } [] checks maxCalls nodeLimit)⟩
  | .resume id provider recovered => some ⟨none, AutoAgents.resume id provider recovered⟩
  | .verify workflow id goal source specs full =>
      some ⟨none, releaseRoot workflow id goal source specs { autoApprove := true }
        { releaseOnly := true, releaseFull := full }⟩
  | .ledger call => if call.onLedger = true then some ⟨none, one call⟩ else none
  | .handle provider allowed =>
      match thread with
      | some ⟨some w, .fail e⟩ =>
        match db.works.find w.id with
        | some latest => some ⟨none, onError cfg provider allowed db latest e⟩
        | none => none
      | _ => thread
  | move =>
    match move.subject.bind db.works.find with
    | none => none
    | some w =>
        some ⟨if move.steps = true ∧ w.status = .running then some w else none, move.onWork cfg db w⟩

abbrev Engine := Pool DB Call ControlError (Option Work)

/-- The engine, from a database on which no thread is at work. -/
def engineSystem (cfg : Config) (origin : DB) : System Engine (Turn Move) :=
  Pool.system (fun call db => call.exec db) (Move.begin cfg) origin

/-! ### Runs from an empty store -/

/-- What a step observes of the reply of a model call alone. -/
def replying (reply : Reply) (operation : OperationId) (fresh : List String) : Observed where
  commands := ⟨fun _ => [], fun _ => true, fun command => command⟩
  reply := .ok reply
  operation
  head := .initial ∅ "base"
  candidate := .error ⟨"scope", "", .state⟩
  documents := .ok
  hashes := fun _ => .ok ∅
  manifest := fun _ => .ok none
  report := .error ⟨"scope", "", .state⟩
  effectOperation := operation
  sourceSeal := ∅
  sourceSealAfter := ∅
  evidence := fun _ => .ok ()
  delivery := .error ⟨"scope", "", .state⟩
  fresh

/-- A root that is running, as far as a reservation reads it. -/
def runningRoot (mode : Mode) : Work :=
  { id := "root", workflow := "flow", parent := none, mode, phase := DB.rootPhase mode, status := .running,
    contract := [], revision := 1, maxCalls := 30 }

/-- A root is started with `--verify-command`; its first model call is made, and its first step begins. -/
def commandTurns (mode : Mode) (reply : Reply) : List (Turn Move) :=
  let kind := Kind.model (DB.rootPhase mode)
  let operation := OperationId.uuid5 "root" kind 0
  [.begin 0 (.start "flow" "root" mode "goal" (.initial ∅ "base") {} {} "pytest tests/a.py" none 30), .go 0,
    .begin 0 (.run "root"), .go 0,
    .begin 0 (.ledger (.reserve (runningRoot mode) kind 0 (.model "prompt" [] "codex") true "codex")), .go 0,
    .begin 0 (.ledger (.settle operation (.reply "reply" none none) .confirmed)), .go 0,
    .begin 0 (.step "root" (replying reply operation ["fix"]))]

/-- The engine before its first turn. -/
def engineOrigin : Engine := ⟨.empty, fun _ => none⟩

/-- The engine after a sequence of turns. -/
def engineAfter (turns : List (Turn Move)) : Engine :=
  engineOrigin.replay (fun call db => call.exec db) (Move.begin {}) turns

def engineTaken (turns : List (Turn Move)) : List (Taken Engine (Turn Move)) :=
  engineOrigin.taken (fun call db => call.exec db) (Move.begin {}) turns

theorem engineAfter_run (turns : List (Turn Move)) :
    (engineSystem {} .empty).Run (engineTaken turns) (engineAfter turns) :=
  Pool.run_turns _ _ DB.empty turns

/-- An operation of the running root is reserved and settled. -/
def effectTurns (revision : Nat) (kind : Kind) (inputs : OperationInputs) (receipt : Receipt) :
    List (Turn Move) :=
  let model := match kind with
    | .model _ => true
    | _ => false
  [.begin 0 (.ledger (.reserve { runningRoot .fix with revision } kind 0 inputs model
      (if model then "codex" else ""))), .go 0,
    .begin 0 (.ledger (.settle (.uuid5 "root" kind 0) receipt .confirmed)), .go 0]

/-- The root runs, an operation is carried out, and the step that follows is taken. -/
def phaseTurns (effect : List (Turn Move)) (o : Observed) : List (Turn Move) :=
  [.begin 0 (.run "root"), .go 0] ++ effect ++ [.begin 0 (.step "root" o), .go 0]

/-- What the steps of a fix observe that changes the workspace to a candidate. -/
def fixing (candidate : Candidate) (kind : Kind) (reply : Reply) : Observed :=
  { replying reply (.uuid5 "root" kind 0) [] with candidate := .ok candidate, report := .ok ⟨∅, ∅⟩ }

/-- A fix with `--verify-command` up to its delivery, which is running. -/
def deliveringTurns (candidate : Candidate) (scope : Path) : List (Turn Move) :=
  [.begin 0 (.start "flow" "root" .fix "goal" candidate.source {} {} "pytest tests/a.py" none 30), .go 0] ++
    phaseTurns (effectTurns 1 (.model .classify) (.model "prompt" [] "codex") (.reply "reply" none none))
      (fixing candidate (.model .classify) { decision := "fix", paths := [scope] }) ++
    phaseTurns (effectTurns 3 (.model .implement) (.model "prompt" [] "codex") (.reply "reply" none none))
      (fixing candidate (.model .implement) {}) ++
    phaseTurns (effectTurns 5 .verify (.verify [] candidate.revision) (.report ⟨∅, ∅⟩))
      (fixing candidate .verify {}) ++
    phaseTurns (effectTurns 7 (.model .review) (.model "prompt" [] "codex") (.reply "reply" none none))
      (fixing candidate (.model .review) { decision := "pass" }) ++
    phaseTurns [] (fixing candidate .artifactVerify {}) ++
    [.begin 0 (.run "root"), .go 0]

end AutoAgents
