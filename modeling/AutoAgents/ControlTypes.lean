import AutoAgents.ControlPaths

/-! The contracts of the business controller. A contract fixes what a work item may do: its goal, its
source revision, its authorization, the paths it may write and the checks that prove it. A contract is
named by its digest; the digest is taken as injective and is represented by what it digests, the bodies
of the contract and of its ancestors. -/

namespace AutoAgents

open Git (Path Commit)

/-! ### States, phases and errors -/

inductive Status
  | ready
  | running
  | waiting
  | blocked
  | completed
  | cancelled
  deriving DecidableEq, Repr

namespace Status

/-- `TRANSITIONS`. -/
def transitions : Status → List Status
  | ready => [running, waiting, blocked, cancelled]
  | running => [ready, waiting, blocked, completed, cancelled]
  | waiting => [ready, blocked, cancelled]
  | blocked => [ready, cancelled]
  | completed => []
  | cancelled => []

/-- `TERMINAL`. -/
def terminal (s : Status) : Bool := s == completed || s == cancelled

theorem transitions_terminal {s : Status} (h : s.terminal = true) : s.transitions = [] := by
  cases s <;> first | rfl | simp [terminal] at h

end Status

inductive Mode
  | run
  | fix
  | collab
  | providerResolve
  | upgrade
  deriving DecidableEq, Repr

/-- The phases the controller knows, and any other text a retained record may carry. -/
inductive Phase
  | clarify
  | prototype
  | design
  | plan
  | providerResearch
  | research
  | implement
  | visualJudge
  | verify
  | readme
  | classify
  | diagnose
  | acceptance
  | acceptanceReview
  | review
  | artifactVerify
  | finalize
  | persistence
  | deliver
  | other (name : String)
  deriving DecidableEq, Repr

/-- `RUN_PHASES`. -/
def runPhases : List Phase :=
  [.clarify, .prototype, .design, .plan, .providerResearch, .implement, .visualJudge, .verify, .readme]

inductive Category
  | state
  | migration
  | budget
  | reconciliation
  | model
  | verification
  | environment
  | provider
  | offline
  | operator
  | engine
  deriving DecidableEq, Repr

structure ControlError where
  code : String
  message : String
  category : Category := .state
  deriving DecidableEq, Repr

/-- What a work item keeps of an error, with the child it came from. -/
structure Failure where
  error : ControlError
  childId : Option String := none
  deriving DecidableEq, Repr

/-! ### Verification specifications -/

inductive Purpose
  | behavior
  | environment
  | artifact
  deriving DecidableEq, Repr

/-- A test target: the file before `::`, and the rest. -/
structure Target where
  path : Path
  case : String := ""
  deriving DecidableEq, Repr

/-- `not text.strip()`. -/
def blank (text : String) : Bool := text.toList.all Char.isWhitespace

structure VerificationSpec where
  command : String
  targets : List Target := []
  purpose : Purpose := .behavior
  required : Bool := true
  timeout : Nat := 600
  outputs : List Path := []
  command_given : blank command = false
  timeout_positive : 0 < timeout
  deriving DecidableEq

/-- A required check of purpose behavior. -/
def VerificationSpec.proves (spec : VerificationSpec) : Bool :=
  spec.purpose == .behavior && spec.required

/-! ### Contracts -/

structure Authorization where
  autoApprove : Bool := false
  real : Bool := true
  deriving DecidableEq, Repr

/-- The contract inputs the controller reads. -/
structure Inputs where
  controlVersion : Nat := 0
  forceRelease : Bool := false
  releaseOnly : Bool := false
  releaseFull : Bool := false
  releaseRevision : Option Commit := none
  plannedTask : Option String := none
  persistenceChange : Option String := none
  variantOnly : Option String := none
  deliveryHead : Option Commit := none
  deriving DecidableEq

/-- Everything in a contract but the reference to its parent. -/
structure ContractBody where
  workflowId : String
  workId : String
  mode : Mode
  goal : String
  source : Commit
  authorization : Authorization := {}
  scope : List Path := []
  checks : List VerificationSpec := []
  inputs : Inputs := {}
  goal_given : blank goal = false
  scope_relative : scope.all relative = true
  deriving DecidableEq

/-- The digest of a contract. -/
abbrev ContractId := List ContractBody

structure Contract extends ContractBody where
  parentContract : ContractId := []
  deriving DecidableEq

namespace Contract

def identity (c : Contract) : ContractId := c.toContractBody :: c.parentContract

theorem identity_injective {c d : Contract} (h : c.identity = d.identity) : c = d := by
  cases c
  cases d
  cases h
  rfl

/-- `Contract(..)`, with the errors of `__post_init__`. -/
def build (workflowId workId : String) (mode : Mode) (goal : String) (source : Commit)
    (authorization : Authorization) (scope : List Path) (checks : List VerificationSpec)
    (inputs : Inputs) (parentContract : ContractId) : Except ControlError Contract :=
  if hgoal : blank goal = false then
    if hscope : scope.all relative = true then
      .ok { workflowId, workId, mode, goal, source, authorization, scope, checks, inputs,
            parentContract, goal_given := hgoal, scope_relative := hscope }
    else .error ⟨"scope", "Contract paths must remain relative to their workspace", .state⟩
  else .error ⟨"contract", "Invalid business contract", .state⟩

variable {workflowId workId goal : String} {mode : Mode} {source : Commit}
  {authorization : Authorization} {scope : List Path} {checks : List VerificationSpec}
  {inputs : Inputs} {parentContract : ContractId} {c : Contract}

/-- A contract that was built has exactly the fields it was given. -/
theorem build_eq_ok
    (h : build workflowId workId mode goal source authorization scope checks inputs
      parentContract = .ok c) :
    c.workflowId = workflowId ∧ c.workId = workId ∧ c.mode = mode ∧ c.goal = goal ∧
      c.source = source ∧ c.authorization = authorization ∧ c.scope = scope ∧
      c.checks = checks ∧ c.inputs = inputs ∧ c.parentContract = parentContract := by
  unfold build at h
  split at h
  · split at h
    · cases h
      exact ⟨rfl, rfl, rfl, rfl, rfl, rfl, rfl, rfl, rfl, rfl⟩
    · cases h
  · cases h

end Contract

end AutoAgents
