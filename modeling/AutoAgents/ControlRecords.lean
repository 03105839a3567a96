import AutoAgents.ControlTypes

/-! The records of the business store: work items with their context, operations with their receipts,
workflows and events. A context is the JSON object of the source with the keys the controller reads. -/

namespace AutoAgents

open Git (Path Commit Tree)

/-! ### What models, checks and candidates report -/

/-- A check as a model declares it, a command text being the declaration with only a command. -/
structure RawCheck where
  command : String
  targets : List Target := []
  purpose : String := "behavior"
  required : Bool := true
  timeout : Int := 600
  outputs : List Path := []
  deriving DecidableEq, Repr

def Purpose.text : Purpose → String
  | behavior => "behavior"
  | environment => "environment"
  | artifact => "artifact"

/-- `spec.to_dict()`. -/
def VerificationSpec.toDict (spec : VerificationSpec) : RawCheck where
  command := spec.command
  targets := spec.targets
  purpose := spec.purpose.text
  required := spec.required
  timeout := spec.timeout
  outputs := spec.outputs

structure Task where
  taskId : String
  goal : String
  paths : List Path := []
  dependsOn : List String := []
  checks : List RawCheck := []
  persistenceChange : Option String := none
  classificationRequired : Bool := false
  deriving DecidableEq, Repr

/-- A structured model reply, as `parse_reply` and `validate` let it through. -/
structure Reply where
  decision : String := ""
  action : String := ""
  reason : String := ""
  summary : String := ""
  spec : String := ""
  questions : List String := []
  paths : List Path := []
  checks : List RawCheck := []
  checksGiven : Bool := false
  verificationCommand : Option String := none
  tasks : List Task := []
  artifacts : List Path := []
  evidenceRefs : List Path := []
  evidencePaths : List Path := []
  childId : String := ""
  foreignRepository : Bool := false
  accepted : Bool := false
  frontend : Bool := false
  notRequired : Bool := false
  testChangesValid : Bool := false
  persistenceChange : Option String := none
  deriving DecidableEq, Repr

/-- A candidate commit of a work item's workspace, with the sorted names it delivers. -/
structure Candidate where
  source : Commit
  revision : Commit
  paths : List Path
  listed : Git.Listed paths
  deriving DecidableEq

/-- A verification report. `source_hash` is the digest of the observed files and is represented by
them; so is the digest of each output artifact. -/
structure Report where
  sourceHash : Tree
  outputs : Tree
  deriving DecidableEq

structure Delivery where
  revision : Commit
  paths : List Path
  deriving DecidableEq

/-- The manifest `validate_persistence` returns; its fingerprint is the digest of both fields. -/
structure Manifest where
  change : String
  candidate : Tree
  deriving DecidableEq

inductive Gate
  | requirements
  | prototype
  | architecture
  | release
  | persistenceReset
  | legacyPrototype
  | legacyProofs
  deriving DecidableEq, Repr

/-! ### Work items -/

inductive Waiting
  | user
  | approval
  | child
  | children
  | taskLimit
  deriving DecidableEq, Repr

inductive Kind
  | model (phase : Phase)
  | verify
  | artifactVerify
  | acceptanceVerify
  | persistence
  | deliver
  | legacy (phase : String)
  deriving DecidableEq, Repr

structure Context where
  provider : Option String := none
  waitingFor : Option Waiting := none
  child : Option String := none
  children : List String := []
  ordinals : List (Kind × Nat) := []
  taskId : Option String := none
  frontend : Bool := false
  tasks : List Task := []
  doneTasks : List String := []
  childResults : List String := []
  candidate : Option Candidate := none
  approvals : List (Gate × Tree) := []
  approval : Option Gate := none
  approvalPhase : Option Phase := none
  approvalArtifacts : List Path := []
  approvalFingerprint : Option Manifest := none
  disposition : Option String := none
  classification : Option Reply := none
  persistenceChange : Option String := none
  persistenceManifest : Option Manifest := none
  persistenceApproval : Option Manifest := none
  implementation : Option Reply := none
  verification : Option Report := none
  review : Option Reply := none
  visualReview : Option Reply := none
  artifactVerification : Option Report := none
  acceptance : Option Reply := none
  acceptanceReview : Option Reply := none
  finalizePaths : List Path := []
  finalizeReview : Option Reply := none
  finalizeReturn : Option Phase := none
  artifactCorrections : Nat := 0
  protocolRetries : Nat := 0
  archived : Bool := false
  deriving DecidableEq

structure WorkResult where
  contract : Option ContractId := none
  candidate : Option Candidate := none
  artifacts : List Path := []
  delivery : Option Delivery := none
  verification : Option Report := none
  verifiedRevision : Option Commit := none
  artifactVerification : Option Report := none
  resolution : Option String := none
  releaseWorkId : Option String := none
  deriving DecidableEq

structure Work where
  id : String
  workflow : String
  parent : Option String
  mode : Mode
  phase : Phase
  status : Status := .ready
  contract : ContractId
  context : Context := {}
  result : WorkResult := {}
  failure : Option Failure := none
  revision : Nat := 0
  calls : Nat := 0
  maxCalls : Nat
  deriving DecidableEq

/-- `work["failure"].get("category")`. -/
def Work.failureCategory (w : Work) : Option Category := w.failure.map (·.error.category)

structure Workflow where
  id : String
  root : String
  maxCalls : Option Nat := none
  calls : Nat := 0
  deriving DecidableEq, Repr

/-! ### Operations -/

/-- `uuid5` of the text `work:kind:ordinal`, taken as injective on the three, or the retained identity
of an imported call. -/
inductive OperationId
  | uuid5 (work : String) (kind : Kind) (ordinal : Nat)
  | imported (call : String)
  deriving DecidableEq, Repr

inductive OperationState
  | dispatched
  | unknown
  | confirmed
  | failed
  deriving DecidableEq, Repr

namespace OperationState

/-- `state in {"DISPATCHED", "UNKNOWN"}`. -/
def unresolved (s : OperationState) : Bool := s == dispatched || s == unknown

/-- `state in {"CONFIRMED", "FAILED"}`. -/
def settled (s : OperationState) : Bool := s == confirmed || s == failed

@[simp] theorem settled_eq_not_unresolved (s : OperationState) : s.settled = !s.unresolved := by
  cases s <;> rfl

end OperationState

inductive OperationInputs
  | model (prompt : String) (contract : ContractId) (provider : String)
  | verify (contract : ContractId) (revision : Commit)
  | artifactVerify (contract : ContractId) (outputs : Tree)
  | acceptanceVerify (checks : List VerificationSpec)
  | persistence (manifest : Manifest)
  | deliver (candidate : Candidate)
  | legacy (call : String)
  deriving DecidableEq

/-- The stored result of an operation. -/
inductive Receipt
  | reply (text : String) (workspaceHash workerWorkspaceHash : Option Tree)
  | report (report : Report)
  | delivery (delivery : Delivery)
  | outcome (text : String)
  | error (error : ControlError)
  | compacted
  deriving DecidableEq

/-- Every field but `workspace_hash` and `worker_workspace_hash` is kept. -/
def Receipt.keeps (original result : Receipt) : Bool :=
  match original, result with
  | .reply text _ _, .reply text' _ _ => text == text'
  | original, result => original == result

structure Operation where
  id : OperationId
  work : String
  kind : Kind
  ordinal : Nat
  inputHash : OperationInputs
  inputs : Option OperationInputs
  state : OperationState := .dispatched
  result : Option Receipt := none
  consumed : Bool := false
  model : Bool
  provider : String := ""
  deriving DecidableEq

/-- An imported call that belongs to no imported work: the record `unassigned_call:<id>`. -/
structure UnassignedCall where
  id : String
  state : String
  deriving DecidableEq, Repr

/-- `state in ("dispatched", "unknown")`. -/
def UnassignedCall.unresolved (c : UnassignedCall) : Bool :=
  c.state == "dispatched" || c.state == "unknown"

inductive EventData
  | transition (before after : Status) (phase : Phase)
  | contractBound (contract : ContractId)
  | operationReserved (operation : OperationId) (kind : Kind) (model : Bool)
  | operationSettled (operation : OperationId) (state : OperationState)
  | named (event : String)
  deriving DecidableEq

structure Event where
  work : String
  data : EventData
  deriving DecidableEq

end AutoAgents
