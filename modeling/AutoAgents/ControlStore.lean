import AutoAgents.BaseExcept
import AutoAgents.BaseTable
import AutoAgents.ControlRecords

/-! The business store. Each method of the source is one transaction: a function from the database to
the database it commits, or to the error after which nothing has changed. Fresh identities are
arguments; an identity that is taken violates a key, as in the source. -/

namespace AutoAgents

open Base
open Git (Path Commit)

structure DB where
  workflows : Table Workflow.id
  contracts : Table Contract.identity
  works : Table Work.id
  operations : Table Operation.id
  unassigned : Table UnassignedCall.id
  events : List Event

/-- What `transition` may change besides the status. -/
structure Changes where
  phase : Option Phase := none
  context : Option Context := none
  result : Option WorkResult := none
  failure : Option (Option Failure) := none
  deriving DecidableEq

/-- A constraint of the schema refused the row. -/
def constraint (message : String) : ControlError := ⟨"engine_exception", message, .engine⟩

def outcomeUnknown (message : String) : ControlError :=
  ⟨"outcome_unknown", message, .reconciliation⟩

namespace DB

def empty : DB := ⟨.empty, .empty, .empty, .empty, .empty, []⟩

def work (db : DB) (identity : String) : Except ControlError Work :=
  match db.works.find identity with
  | some w => .ok w
  | none => .error ⟨"unknown_work", "Unknown work item: " ++ identity, .state⟩

/-- `Store.contract`. The row is stored under its digest, so the checksum test cannot fail. -/
def contract (db : DB) (identity : ContractId) : Except ControlError Contract :=
  match db.contracts.find identity with
  | some c => .ok c
  | none => .error ⟨"contract", "Missing contract", .state⟩

def event (db : DB) (work : String) (data : EventData) : DB :=
  { db with events := db.events ++ [⟨work, data⟩] }

/-- `work IN (SELECT id FROM work_items WHERE workflow=?)`. -/
def inWorkflow (db : DB) (workflow : String) (op : Operation) : Bool :=
  (db.works.find op.work).any fun w => w.workflow == workflow

/-! ### New work items -/

/-- `_insert_work`. -/
def insertWork (db : DB) (c : Contract) (parent : Option String) (phase : Phase) (limit : Nat) :
    Except ControlError DB :=
  let row : Work :=
    { id := c.workId, workflow := c.workflowId, parent, mode := c.mode, phase,
      contract := c.identity, maxCalls := limit }
  if (db.workflows.find c.workflowId).isNone then .error (constraint "FOREIGN KEY work_items.workflow")
  else
    match db.works.insert? row with
    | none => .error (constraint "UNIQUE work_items.id")
    | some works => .ok { db with contracts := db.contracts.insertOrIgnore c, works }

/-- The phase a new root starts in. -/
def rootPhase : Mode → Phase
  | .run => .clarify
  | .fix => .classify
  | .providerResolve => .research
  | _ => .diagnose

/-- The phase a new child starts in. -/
def childPhase : Mode → Phase
  | .run => .clarify
  | .fix => .classify
  | _ => .research

def createWorkflow (db : DB) (workflow work : String) (mode : Mode) (goal : String) (source : Commit)
    (authorization : Authorization) (inputs : Inputs) (scope : List Path)
    (checks : List VerificationSpec) (maxCalls : Option Nat) (nodeLimit : Nat) :
    Except ControlError DB :=
  if nodeLimit = 0 ∨ maxCalls = some 0 then
    .error ⟨"budget", "Call limits must be positive integers", .state⟩
  else do
    let c ← Contract.build workflow work mode goal source authorization scope checks inputs []
    match db.workflows.insert? { id := workflow, root := work, maxCalls } with
    | none => .error (constraint "UNIQUE workflows.id")
    | some workflows => insertWork { db with workflows } c none (rootPhase mode) nodeLimit

/-! ### Transitions -/

/-- The operations that forbid completion of a work item, of the whole workflow for a root. -/
def blocksCompletion (db : DB) (current work : Work) (op : Operation) : Bool :=
  op.state.unresolved &&
    (op.work == work.id || current.parent.isNone && db.inWorkflow work.workflow op)

/-- The row `_transition` writes. -/
def changed (status : Status) (changes : Changes) (current : Work) : Work :=
  { current with
    status
    phase := changes.phase.getD current.phase
    context := changes.context.getD current.context
    result := changes.result.getD current.result
    failure := changes.failure.getD current.failure
    revision := current.revision + 1 }

/-- `_transition`: only from the record the caller has read, and along `TRANSITIONS`. -/
def transitionRow (db : DB) (work : Work) (status : Status) (changes : Changes) :
    Except ControlError DB :=
  match db.works.find work.id with
  | none => .error ⟨"stale_revision", "Work item changed after it was read", .state⟩
  | some current =>
    if current.revision ≠ work.revision then
      .error ⟨"stale_revision", "Work item changed after it was read", .state⟩
    else if status ≠ current.status ∧ status ∉ current.status.transitions then
      .error ⟨"transition", "Invalid transition", .state⟩
    else if status = .completed ∧ db.operations.rows.any (db.blocksCompletion current work) then
      .error (outcomeUnknown "Completion requires reconciliation of external operations")
    else
      .ok (({ db with works := db.works.modify work.id (changed status changes) fun _ => rfl }).event
        work.id (.transition current.status status (changes.phase.getD current.phase)))

/-- `_consume`: only a confirmed or failed operation. -/
def consume (db : DB) (identity : OperationId) : Except ControlError DB :=
  match db.operations.find identity with
  | none => .error (outcomeUnknown "Unconfirmed operation cannot be consumed")
  | some op =>
    if op.state.settled = false then
      .error (outcomeUnknown "Unconfirmed operation cannot be consumed")
    else
      .ok { db with
        operations := db.operations.modify identity (fun op => { op with consumed := true })
          fun _ => rfl }

def transition (db : DB) (work : Work) (status : Status) (changes : Changes)
    (operation : Option OperationId) (operations : List OperationId) : Except ControlError DB := do
  let db ← db.transitionRow work status changes
  (operation.toList ++ operations).foldlM consume db

def child (db : DB) (parent : Work) (work : String) (mode : Mode) (goal : String) (source : Commit)
    (inputs : Inputs) (scope : List Path) (checks : List VerificationSpec) (limit : Nat)
    (operation : Option OperationId) : Except ControlError DB := do
  let pc ← db.contract parent.contract
  let c ← Contract.build parent.workflow work mode goal source pc.authorization scope checks inputs
    pc.identity
  let db ← db.insertWork c (some parent.id) (childPhase mode) limit
  let db ← db.transitionRow parent .waiting
    { context := some { parent.context with child := some work, waitingFor := some .child } }
  operation.toList.foldlM consume db

/-- `VerificationSpec.read`, with the errors of `__post_init__`. -/
def readSpec (value : RawCheck) : Except ControlError VerificationSpec :=
  if hcommand : blank value.command = false then
    match (match value.purpose with
      | "behavior" => some Purpose.behavior
      | "environment" => some .environment
      | "artifact" => some .artifact
      | _ => none) with
    | none => .error ⟨"verification_spec", "Unknown verification purpose", .state⟩
    | some purpose =>
      if htimeout : 0 < value.timeout.toNat then
        .ok { command := value.command, targets := value.targets, purpose,
              required := value.required, timeout := value.timeout.toNat, outputs := value.outputs,
              command_given := hcommand, timeout_positive := htimeout }
      else .error ⟨"verification_spec", "Invalid verification timeout", .state⟩
  else .error ⟨"verification_spec", "A verification command is required", .state⟩

/-- One round of the loop of `batch`: a planned task starts in `implement`, under its own contract. -/
def batchTask (parent : Work) (pc : Contract) (source : Commit) (db : DB) (item : String × Task) :
    Except ControlError DB := do
  let (work, task) := item
  let checks ← task.checks.mapM readSpec
  let c ← Contract.build parent.workflow work .fix task.goal source pc.authorization task.paths checks
    { plannedTask := some task.taskId, persistenceChange := task.persistenceChange } pc.identity
  let db ← db.insertWork c (some parent.id) .implement 15
  pure { db with
    works := db.works.modify work
      (fun w => { w with context := { taskId := some task.taskId } }) fun _ => rfl }

def batch (db : DB) (parent : Work) (tasks : List (String × Task)) (source : Commit) :
    Except ControlError DB := do
  let pc ← db.contract parent.contract
  let db ← tasks.foldlM (batchTask parent pc source) db
  db.transitionRow parent .waiting
    { context := some
        { parent.context with children := tasks.map Prod.fst, waitingFor := some .children } }

/-- An explicit operator artifact request shares the original call budget. -/
def addon (db : DB) (parent : Work) (identity goal : String) (source : Commit) (scope : List Path)
    (inputs : Inputs) (phase : Phase) : Except ControlError DB := do
  let pc ← db.contract parent.contract
  let c ← Contract.build parent.workflow identity .run goal source pc.authorization scope [] inputs
    pc.identity
  db.insertWork c (some parent.id) phase parent.maxCalls

/-- The row `bind_contract` writes: the completed contract and, with a next phase, the move to it. -/
def bound (identity : ContractId) (nextPhase : Option Phase) (context : Context) (current : Work) :
    Work :=
  match nextPhase with
  | none => { current with contract := identity, revision := current.revision + 1 }
  | some phase =>
    { current with
      contract := identity, revision := current.revision + 1, status := .ready, phase, context }

theorem bound_id (identity : ContractId) (nextPhase : Option Phase) (context : Context) (w : Work) :
    (bound identity nextPhase context w).id = w.id := by
  cases nextPhase <;> rfl

/-- `bind_contract`: a contract is only completed, by its classification or planning owner. -/
def bindContract (db : DB) (work : Work) (c : Contract) (nextPhase : Option Phase)
    (context : Option Context) (operation : Option OperationId) : Except ControlError DB :=
  if c.workId ≠ work.id ∨ c.workflowId ≠ work.workflow ∨ c.mode ≠ work.mode then
    .error ⟨"authority", "Contract identity changed", .state⟩
  else do
    let previous ← db.contract work.contract
    if previous.checks ≠ [] ∧ c.checks ≠ previous.checks then
      .error ⟨"authority", "Bound verification cannot change", .state⟩
    else if previous.scope ≠ [] ∧ c.scope ≠ previous.scope then
      .error ⟨"authority", "Bound source scope cannot change", .state⟩
    else if c.goal ≠ previous.goal ∨ c.source ≠ previous.source ∨
        c.authorization ≠ previous.authorization ∨ c.inputs ≠ previous.inputs ∨
        c.parentContract ≠ previous.parentContract then
      .error ⟨"authority", "Contract goal, source or authorization changed", .state⟩
    else
      match db.works.find work.id with
      | none => .error (constraint "no such work item")
      | some row =>
        if row.revision ≠ work.revision ∨ work.phase ∉ [.classify, .plan, .providerResearch] then
          .error ⟨"contract",
            "Contract can be completed only by its classification/planning owner", .state⟩
        else
          let db := ({ db with
            contracts := db.contracts.insertOrIgnore c
            works := db.works.modify work.id
              (bound c.identity nextPhase (context.getD work.context)) (bound_id _ _ _) }).event work.id (.contractBound c.identity)
          match nextPhase with
          | none => .ok db
          | some _ => operation.toList.foldlM consume db

/-! ### Operations -/

/-- `reserve`: the retained operation, or a new one under the call limits; the flag is `new`. -/
def reserve (db : DB) (work : Work) (kind : Kind) (ordinal : Nat) (inputs : OperationInputs)
    (model : Bool) (provider : String) : Except ControlError (DB × Bool) :=
  let identity := OperationId.uuid5 work.id kind ordinal
  match db.operations.find identity with
  | some old =>
    if old.inputHash ≠ inputs then
      .error ⟨"operation_inputs", "Retained operation inputs changed", .state⟩
    else if old.state.unresolved then .error (outcomeUnknown "Reconcile operation")
    else .ok (db, false)
  | none =>
    match db.works.find work.id, db.workflows.find work.workflow with
    | some node, some workflow =>
      if node.revision ≠ work.revision ∨ node.status ≠ .running then
        .error ⟨"revision", "Execution authority changed before dispatch", .state⟩
      else if db.unassigned.rows.any UnassignedCall.unresolved then
        .error (outcomeUnknown "Reconcile imported operation")
      else if db.operations.rows.any
          (fun op => op.state == .unknown && db.inWorkflow work.workflow op) then
        .error (outcomeUnknown "Reconcile operation")
      else if model ∧
          (node.maxCalls ≤ node.calls ∨ ∃ limit ∈ workflow.maxCalls, limit ≤ workflow.calls) then
        .error ⟨"budget", "Provider call limit reached", .budget⟩
      else if db.operations.rows.any
          (fun op => op.work == work.id && op.kind == kind && op.ordinal == ordinal) then
        .error (constraint "UNIQUE operations.work,kind,ordinal")
      else
        match db.operations.insert?
          { id := identity, work := work.id, kind, ordinal, inputHash := inputs,
            inputs := some inputs, model, provider } with
        | none => .error (constraint "UNIQUE operations.id")
        | some operations =>
          let charge := if model then 1 else 0
          .ok (({ db with
            operations
            works := db.works.modify work.id (fun w => { w with calls := w.calls + charge })
              fun _ => rfl
            workflows := db.workflows.modify work.workflow
              (fun w => { w with calls := w.calls + charge }) fun _ => rfl }).event work.id
                (.operationReserved identity kind model), true)
    | _, _ => .error (constraint "no such work item or workflow")

/-- `settle`: only an operation that is dispatched or unknown. -/
def settle (db : DB) (identity : OperationId) (result : Receipt) (state : OperationState) :
    Except ControlError DB :=
  if state = .dispatched then .error ⟨"operation_state", "Invalid operation outcome", .state⟩
  else
    match db.operations.find identity with
    | none => .error ⟨"operation_state", "Operation already settled or missing", .state⟩
    | some row =>
      if row.state.unresolved = false then
        .error ⟨"operation_state", "Operation already settled or missing", .state⟩
      else
        .ok (({ db with
          operations := db.operations.modify identity
            (fun op => { op with state, result := some result }) fun _ => rfl }).event row.work
              (.operationSettled identity state))

/-- Attach controller-derived artifacts to an unconsumed confirmed reply. -/
def deriveReceipt (db : DB) (identity : OperationId) (result : Receipt) : Except ControlError DB :=
  match db.operations.find identity with
  | none => .error ⟨"receipt", "Receipt is no longer owned by this phase", .state⟩
  | some row =>
    if row.state ≠ .confirmed ∨ row.consumed then
      .error ⟨"receipt", "Receipt is no longer owned by this phase", .state⟩
    else if ∀ original ∈ row.result, original.keeps result then
      .ok { db with
        operations := db.operations.modify identity (fun op => { op with result := some result })
          fun _ => rfl }
    else .error ⟨"receipt", "Provider result fields cannot be changed", .state⟩

/-- What `orphan_calls` makes of one operation, after its process has quiesced. Local verification is
repeatable; an interrupted model call or local mutation has to be reconciled. -/
def orphaned (op : Operation) : Operation :=
  if op.state ≠ .dispatched then op
  else if op.model then { op with state := .unknown }
  else if op.kind = .deliver ∨ op.kind = .persistence then
    { op with
      state := .unknown
      result := some (.error ⟨"mutation_interrupted",
        "Reconcile a local mutation before continuing", .reconciliation⟩) }
  else
    { op with
      state := .failed, consumed := true
      result := some (.error ⟨"interrupted",
        "Local operation interrupted after process quiescence", .environment⟩) }

theorem orphaned_id (op : Operation) : (orphaned op).id = op.id := by
  unfold orphaned
  split_ifs <;> rfl

def orphanCalls (db : DB) : DB := { db with operations := db.operations.map orphaned orphaned_id }

/-- What the compaction of `cleanup.collect` makes of one operation, with the length tests on its
stored texts. Only a consumed, settled operation of terminal work loses its texts. -/
def compacted (db : DB) (longResult longInputs : Operation → Bool) (op : Operation) : Operation :=
  if op.consumed && op.state.settled && (db.works.find op.work).any (·.status.terminal) then
    { op with
      result := if longResult op then some .compacted else op.result
      inputs := if longInputs op then none else op.inputs }
  else op

theorem compacted_id (db : DB) (longResult longInputs : Operation → Bool) (op : Operation) :
    (compacted db longResult longInputs op).id = op.id := by
  unfold compacted
  split_ifs <;> rfl

/-- Of the events of terminal work, the last 64 of each work item. -/
def recentEvents (terminal : String → Bool) : List Event → List Event
  | [] => []
  | e :: later =>
      if terminal e.work && 64 ≤ later.countP (·.work == e.work) then recentEvents terminal later
      else e :: recentEvents terminal later

/-- The business statements of `cleanup.collect`. -/
def collect (db : DB) (longResult longInputs : Operation → Bool) : DB :=
  { db with
    operations := db.operations.map (compacted db longResult longInputs)
      (compacted_id db longResult longInputs)
    events := recentEvents (fun id => (db.works.find id).any (·.status.terminal)) db.events }

/-- `set_meta("unassigned_call:" + id, ..)`. -/
def setUnassigned (db : DB) (call : UnassignedCall) : DB :=
  { db with unassigned := db.unassigned.insertOrReplace call }

end DB
end AutoAgents
