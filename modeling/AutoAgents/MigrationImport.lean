import AutoAgents.StoreEffects

/-! The import of legacy records. A plan turns each record into an item with the problems of its
evidence; the import writes a workflow for every item, puts the items under their legacy parents, marks
the parents that wait for a child, and takes over the calls. What git and the file system say about a
record is part of the record. -/

namespace AutoAgents

open Base
open Git (Commit Tree)

/-! ### Legacy records -/

/-- A handoff record, under its identity. -/
structure Handoff where
  identity : String
  target : String
  resume : Option String := none
  parent : String := ""
  child : Option String := none
  summary : String := ""
  verificationCommand : Option String := none
  sourceDescriptor : Option String := none
  deriving DecidableEq

/-- What the import of a retained checkout finds: its candidate, its approvals, and whether an approved
prototype misses evidence. -/
structure Retained where
  candidate : Candidate
  approvals : List (Gate × Tree) := []
  prototypeIncomplete : Bool := false
  deriving DecidableEq

/-- What `retained_run` takes over of the progress of a run. -/
structure RunProgress where
  frontend : Bool := false
  tasks : List Task := []
  doneTasks : List String := []
  approvals : List (Gate × Tree) := []
  deriving DecidableEq

/-- The context of the run that goes on from there. -/
def RunProgress.context (progress : RunProgress) : Context :=
  { frontend := progress.frontend, tasks := progress.tasks, doneTasks := progress.doneTasks
    approvals := progress.approvals }

/-- A session or run record. -/
structure LegacyRecord where
  id : String
  mode : Mode
  status : String := "pending"
  goal : String := ""
  currentStage : Phase := .clarify
  parentHandoff : Option String := none
  activeHandoff : Option String := none
  sourceDescriptor : Option String := none
  command : String := ""
  boundCommand : Option String := none
  /-- The candidate receipt, and whether it is valid. -/
  receipt : Option Bool := none
  source : Option Commit := none
  deliveryHead : Option Commit := none
  /-- Problems of source, custody and binding. -/
  sourceProblems : List String := []
  /-- The targets of the command that are not there. -/
  missingTargets : List String := []
  /-- A receipt completion, or a completed acceptance for a collab. -/
  completionProven : Bool := false
  runGoal : String := ""
  runProgress : RunProgress := {}
  runChecks : List VerificationSpec := []
  runProblems : List String := []
  authorization : Authorization := {}
  hardCeiling : Nat := 15
  currentAttempt : Nat := 0
  checkout : Bool := true
  workspace : Except ControlError Retained

structure LegacyCall where
  id : String
  /-- The last part of the subject. -/
  subject : String
  phase : String
  state : String
  model : Bool := true
  result : Option String := none
  deriving DecidableEq, Repr

/-- `resolve_handoff`, with the number of handoffs that it may still visit. -/
def resolveHandoff (handoffs : List Handoff) :
    Nat → List String → Option String → Except ControlError Handoff
  | _, _, none => .error ⟨"migration", "Resume chain has no original task", .migration⟩
  | 0, _, some _ => .error ⟨"migration", "Invalid legacy resume chain", .migration⟩
  | remaining + 1, visited, some identity =>
      if identity = "" then .error ⟨"migration", "Resume chain has no original task", .migration⟩
      else if identity ∈ visited then .error ⟨"migration", "Invalid legacy resume chain", .migration⟩
      else
        match handoffs.find? (·.identity == identity) with
        | none => .error ⟨"migration", "Missing handoff " ++ identity, .migration⟩
        | some row =>
            if row.target ≠ "resume" then .ok row
            else resolveHandoff handoffs remaining (identity :: visited) row.resume

/-- `resolve_handoff(records, identity)`. -/
def resolved (handoffs : List Handoff) (identity : String) : Except ControlError Handoff :=
  resolveHandoff handoffs 16 [] (some identity)

/-! ### `plan` -/

/-- An item of the plan. -/
structure PlanItem where
  id : String
  mode : Mode
  parent : String
  goal : String
  phase : Phase
  command : String
  status : String
  problems : List String
  context : Context
  checks : List VerificationSpec
  deriving DecidableEq

/-- The legacy parent of a record, its issue, and the problems of its handoff. -/
def planHandoff (handoffs : List Handoff) (r : LegacyRecord) : String × String × List String :=
  match r.parentHandoff with
  | none => ("", "", [])
  | some identity =>
    match resolved handoffs identity with
    | .error e => ("", "", [e.code ++ ":" ++ e.message])
    | .ok original =>
      (original.parent, original.summary,
        (if original.child ≠ some r.id then ["handoff_identity"] else []) ++
        (if r.sourceDescriptor.isSome ∧ original.sourceDescriptor ≠ r.sourceDescriptor then
          ["source_authority"] else []) ++
        (if r.command ≠ "" ∧ original.verificationCommand.getD r.command ≠ r.command then
          ["command_authority"] else []))

/-- The phase an imported item takes up. -/
def planPhase (r : LegacyRecord) : Phase :=
  if r.receipt = some true ∧ r.status ≠ "completed" then .verify
  else
    match r.mode with
    | .fix =>
        if r.status = "executing" ∨ r.status = "verifying" then
          if r.receipt.isSome then .verify else .implement
        else .classify
    | .collab => .diagnose
    | .run => r.currentStage
    | _ => .research

def planProblems (handoffs : List Handoff) (r : LegacyRecord) : List String :=
  r.sourceProblems ++ (planHandoff handoffs r).2.2 ++
    (if r.boundCommand.getD r.command ≠ r.command then ["command_binding"] else []) ++
    (if r.status ∈ ["verifying", "executing", "completed"] ∨ r.receipt.isSome then
      r.missingTargets.map ("verification_target_missing:" ++ ·) else []) ++
    (if r.status = "completed" ∧ r.completionProven = false then ["completion_evidence_missing"] else []) ++
    (if r.mode = .run then r.runProblems else []) ++
    (if r.receipt = some false then ["candidate_receipt"] else [])

def planItem (handoffs : List Handoff) (r : LegacyRecord) : PlanItem :=
  let (parent, summary, _) := planHandoff handoffs r
  let runGoal := if r.mode = .run then r.runGoal else ""
  { id := r.id, mode := r.mode, parent
    goal := if runGoal ≠ "" then runGoal else if summary ≠ "" then summary else r.goal
    phase := planPhase r
    command := r.command
    status := r.status
    problems := planProblems handoffs r
    context := if r.mode = .run then r.runProgress.context else {}
    checks := if r.mode = .run then r.runChecks else [] }

/-- The records that become items: those with an identity and a known mode. -/
def planned (records : List LegacyRecord) : List LegacyRecord :=
  records.filter fun r => r.id != "" && r.mode != .upgrade

/-! ### `migrate` -/

def migrationFailure (message : String) : Failure := ⟨⟨"migration_evidence", message, .migration⟩, none⟩

def importStatus (item : PlanItem) : Status :=
  if item.status = "completed" ∧ item.problems = [] then .completed
  else if item.problems ≠ [] ∨ item.status = "blocked" then .blocked
  else .ready

/-- The source of an item without one. -/
def unavailable (id : String) : Commit := .initial ∅ ("unavailable-" ++ id)

/-- The row of an imported item. -/
def imported (item : PlanItem) (calls : Nat) (w : Work) : Work :=
  { w with
    phase := item.phase
    status := importStatus item
    failure := if importStatus item = .blocked then some (migrationFailure "Reconcile retained evidence")
      else none
    calls
    context := item.context }

/-- The proof commands of an item. -/
def importChecks (item : PlanItem) : Except ControlError (List VerificationSpec) :=
  if item.checks ≠ [] then .ok item.checks
  else if item.command ≠ "" then (DB.readSpec { command := item.command }).map fun spec => [spec]
  else .ok []

/-- An approved prototype without its evidence blocks the item. -/
def blockPrototype (db : DB) (node : Work) (incomplete : Bool) : Except ControlError DB :=
  if incomplete then
    db.transition node .blocked
      { failure := some (some (migrationFailure "Approved prototype evidence is incomplete")) } none []
  else .ok db

/-- What the retained checkout adds to an imported item. -/
def importWorkspace (db : DB) (id : String) (retained : Retained) : Except ControlError DB := do
  let node ← db.work id
  let db ← blockPrototype db node retained.prototypeIncomplete
  let node ← db.work id
  db.transition node node.status
    { context := some
        { node.context with candidate := some retained.candidate, approvals := retained.approvals } }
    none []

/-- A round of the first loop: the workflow of one item. -/
def importItem (handoffs : List Handoff) (calls : List LegacyCall) (fresh : String → String) (db : DB)
    (r : LegacyRecord) : Except ControlError DB := do
  let item := planItem handoffs r
  let available := r.source.isSome && !item.problems.contains "source_unavailable" && r.checkout
  let source := if available then r.source.getD (unavailable item.id) else unavailable item.id
  let checks ← importChecks item
  let db ← db.createWorkflow (fresh item.id) item.id item.mode
    (if item.goal = "" then "Retained goal needs reconciliation" else item.goal) source r.authorization
    { deliveryHead := r.deliveryHead } [] checks none (max 1 r.hardCeiling)
  let charged := max r.currentAttempt (calls.countP fun c => c.model && c.subject == item.id)
  let db := { db with works := db.works.modify item.id (imported item charged) fun _ => rfl }
  if available && importStatus item != .completed && !item.problems.contains "unowned_source_changes" then
    let retained ← r.workspace
    importWorkspace db item.id retained
  else pure db

/-- The row of an item under its parent. -/
def reparented (parent : Work) (c : Contract) (w : Work) : Work :=
  { w with workflow := parent.workflow, parent := some parent.id, contract := c.identity }

theorem reparented_id (parent : Work) (c : Contract) (w : Work) : (reparented parent c w).id = w.id := rfl

/-- A round of the second loop: the item moves to the workflow of its legacy parent, under a contract
that names the contract the parent has at that moment. -/
def reparent (ids : List String) (db : DB) (item : PlanItem) : Except ControlError DB :=
  if item.parent ∉ ids then .ok db
  else do
    let parent ← db.work item.parent
    let child ← db.work item.id
    let pc ← db.contract parent.contract
    let cc ← db.contract child.contract
    let updated : Contract := { cc with workflowId := parent.workflow, parentContract := pc.identity }
    let works := db.works.modify child.id (reparented parent updated) (reparented_id parent updated)
    pure { db with
      contracts := db.contracts.insertOrIgnore updated
      works
      workflows := db.workflows.filter fun wf =>
        wf.id != child.workflow || works.rows.any (·.workflow == wf.id) }

/-- The row of an item that waits for the child of its active handoff. -/
def awaiting (child : String) (w : Work) : Work :=
  { w with status := .waiting, context := { w.context with child := some child, waitingFor := some .child } }

/-- The child an active handoff hands to, if it was imported. -/
def activeChild (handoffs : List Handoff) (ids : List String) (r : LegacyRecord) : Option String :=
  match r.activeHandoff with
  | none => none
  | some identity =>
    match resolved handoffs identity with
    | .error _ => none
    | .ok original => original.child.filter (· ∈ ids)

/-- A round of the third loop. -/
def markActive (handoffs : List Handoff) (ids : List String) (db : DB) (r : LegacyRecord) : DB :=
  match activeChild handoffs ids r with
  | none => db
  | some child => { db with works := db.works.modify r.id (awaiting child) fun _ => rfl }

def importState (state : String) : OperationState :=
  if state = "dispatched" ∨ state = "unknown" then .unknown
  else if state = "finished" then .confirmed
  else .failed

/-- The operation of an imported call. -/
def importedCall (ordinal : Nat) (call : LegacyCall) : Operation where
  id := .imported call.id
  work := call.subject
  kind := .legacy call.phase
  ordinal
  inputHash := .legacy call.id
  inputs := none
  state := importState call.state
  result := call.result.map .outcome
  consumed := importState call.state != .unknown
  model := call.model

/-- A round of the fourth loop, after the calls before it. -/
def importCall (ids : List String) (before : List LegacyCall) (db : DB) (call : LegacyCall) :
    Except ControlError DB :=
  if call.subject ∉ ids then .ok (db.setUnassigned ⟨call.id, call.state⟩)
  else
    match db.operations.insert? (importedCall
        (before.countP fun c => c.subject == call.subject && c.phase == call.phase) call) with
    | none => .error (constraint "UNIQUE operations.id")
    | some operations => .ok { db with operations }

def importCalls (ids : List String) (before : List LegacyCall) (db : DB) :
    List LegacyCall → Except ControlError DB
  | [] => .ok db
  | call :: calls => do
      let db ← importCall ids before db call
      importCalls ids (before ++ [call]) db calls

/-- The calls of the work items of a workflow. -/
def DB.workflowTotal (db : DB) (workflow : String) : Nat :=
  db.works.total fun w => if w.workflow = workflow then w.calls else 0

/-- The last loop: each workflow that has a work item gets the sum of their calls. -/
def sumCalls (db : DB) : DB :=
  { db with
    workflows := db.workflows.map (fun wf =>
      if db.works.rows.any (·.workflow == wf.id) then { wf with calls := db.workflowTotal wf.id } else wf)
      fun wf => by split <;> rfl }

/-- `migrate`: the database it puts in place. -/
def migrate (handoffs : List Handoff) (records : List LegacyRecord) (calls : List LegacyCall)
    (fresh : String → String) : Except ControlError DB := do
  let records := planned records
  let ids := records.map (·.id)
  let db ← records.foldlM (importItem handoffs calls fresh) DB.empty
  let db ← (records.map (planItem handoffs)).foldlM (reparent ids) db
  let db := records.foldl (markActive handoffs ids) db
  let db ← importCalls ids [] db calls
  pure (sumCalls db)

end AutoAgents
