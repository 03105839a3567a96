import AutoAgents.BaseJsonEqual
import AutoAgents.OperatorStore

/-! The stored handoffs of a workflow, and the chain from a resume wrapper to the handoff that it resumes. -/

namespace AutoAgents.Resume

open Base
open Operator (stripText)

abbrev Fields (φ : Type) := List (String × Json φ)

/-! ### Handoffs -/

def workflowKinds : List String := ["collab", "fix", "run", "provider_resolve"]

def maxResumeDepth : Nat := 64

/-- A session, by its kind and its identity. -/
structure WorkflowRef where
  kind : String
  nativeId : String
  known : kind ∈ workflowKinds
  named : stripText nativeId ≠ ""
  deriving DecidableEq

structure WorkflowHandoff (φ : Type) where
  handoffId : String
  workflowId : String
  parent : WorkflowRef
  target : String
  child : Option WorkflowRef := none
  payload : Fields φ := []

/-- What a handoff is read with: the values of floating point numbers, `str` of Python, and
`str((project_root / Path(text).expanduser()).resolve())`, where that does not raise. -/
structure Reader (φ : Type) where
  value : φ → ℚ
  str : Json φ → String
  locate : String → Option String

inductive Raised
  | value (message : String)
  | notFound (message : String)
  | typeError
  | path
  | identity (handoffId sessionId : String) (childSessionIds : List String)
  deriving DecidableEq, Repr

/-- The file of a handoff, by the name without its suffix. -/
inductive Stored (φ : Type)
  | missing
  | unreadable
  | document (payload : Json φ)

variable {φ : Type}

/-! ### Loading -/

/-- `[A-Za-z0-9_.-]+` -/
def safeComponent (value : String) : Except Raised String :=
  let normalized := stripText value
  if normalized ≠ "" ∧ normalized.toList.all fun c => c.isAlphanum || c == '_' || c == '.' || c == '-' then .ok normalized
  else .error (.value ("unsafe workflow identifier: " ++ value))

def Reader.text (r : Reader φ) (fields : Fields φ) (key default : String) : String :=
  (fields.lookup key).elim default r.str

def Reader.ref (r : Reader φ) (payload : Option (Json φ)) : Except Raised WorkflowRef :=
  let data := match payload with
    | some (.obj fields) => fields
    | _ => []
  let kind := r.text data "kind" ""
  let nativeId := r.text data "native_id" ""
  if hkind : kind ∈ workflowKinds then
    if hid : stripText nativeId ≠ "" then .ok ⟨kind, nativeId, hkind, hid⟩
    else .error (.value "workflow native_id must not be empty")
  else .error (.value ("unsupported workflow kind: " ++ kind))

def Reader.fromDict (r : Reader φ) (data : Fields φ) : Except Raised (WorkflowHandoff φ) := do
  let parent ← r.ref (data.lookup "parent")
  let child ← match data.lookup "child" with
    | some (.obj fields) => (r.ref (some (.obj fields))).map some
    | _ => pure none
  return {
    handoffId := r.text data "handoff_id" ""
    workflowId := r.text data "workflow_id" ""
    parent
    target := r.text data "target" ""
    child
    payload := match data.lookup "payload" with
      | some (.obj fields) => fields
      | _ => [] }

def Reader.loadHandoff (r : Reader φ) (store : String → Stored φ) (handoffId : String) :
    Except Raised (WorkflowHandoff φ) := do
  let name ← safeComponent handoffId
  match store name with
  | .document (.obj data) => r.fromDict data
  | .unreadable => .error (.value "invalid JSON")
  | _ => .error (.notFound ("handoff not found: " ++ handoffId))

/-! ### The chain -/

/-- The identity that a wrapper resumes. -/
def resumes (entry : WorkflowHandoff φ) : Except Raised String :=
  match entry.payload.lookup "resume_handoff_id" with
  | some (.str requested) =>
    if stripText requested = "" then .error (.value "resume handoff requires resume_handoff_id") else .ok requested
  | _ => .error (.value "resume handoff requires resume_handoff_id")

/-- The entries from a handoff to the original, behind the entries so far; `left` more may follow. -/
def Reader.follow (r : Reader φ) (store : String → Stored φ) (workflowId : String) :
    Nat → List (WorkflowHandoff φ) → String → WorkflowHandoff φ → Except Raised (List (WorkflowHandoff φ))
  | left, chain, requested, current =>
    if requested = "" ∨ current.handoffId ≠ requested ∨ requested ∈ chain.map WorkflowHandoff.handoffId ∨
        current.workflowId ≠ workflowId then
      .error (.value "resume chain has conflicting handoff or workflow identity")
    else if chain.head?.any fun first => decide (current.parent ≠ first.parent) then
      .error (.value "resume chain belongs to another parent session")
    else if current.target ≠ "resume" then
      if current.target = "fix" ∨ current.target = "run" then .ok (chain ++ [current])
      else .error (.value "resume chain has no executable original handoff")
    else
      match left with
      | 0 => .error (.value "resume chain exceeds the maximum depth")
      | left + 1 => do
        let requested ← resumes current
        let next ← r.loadHandoff store requested
        r.follow store workflowId left (chain ++ [current]) requested next

/-! ### Authorities -/

def routeKeys : List String := ["issue_seed", "spec_seed", "fix_disposition"]

mutual
/-- `route_sources`: an envelope, and those within it. -/
def sourcesOf : Json φ → List (Fields φ)
  | .obj fields => fields :: routeKeys.flatMap fun key => ((fieldSources fields).lookup key).getD []
  | _ => []

def fieldSources : List (String × Json φ) → List (String × List (Fields φ))
  | [] => []
  | (key, value) :: rest => (key, sourcesOf value) :: fieldSources rest
end

def routeSources (payload : Fields φ) : List (Fields φ) := sourcesOf (.obj payload)

def plainKeys : List String :=
  ["authorization_policy", "goal_execution_environment", "source_descriptor", "auto_approve", "target_repository",
    "evidence_base"]

/-- The values that are paths. -/
def pathKeys : List String := ["target_repository", "evidence_base"]

/-- What only the original may bring in. -/
def originalKeys : List String := ["task_ids", "requirement_ids", "target_repository", "source_descriptor"]

/-- The texts of a list. -/
def texts : List (Json φ) → Option (List String)
  | [] => some []
  | .str s :: rest => (texts rest).map (s :: ·)
  | _ => none

/-- `sorted(set(names))` -/
def sortedSet (names : List String) : List String := names.dedup.insertionSort (· ≤ ·)

/-- The identities of a field, with the one of the field for a single identity. Other values than texts are not sorted
among texts. -/
def identities (source : Fields φ) (field : String) (single : Option String) : Except Raised (Option (Json φ)) :=
  let one := single.bind fun key => source.lookup key
  if (source.lookup field).isNone ∧ one.isNone then .ok none
  else
    match (source.lookup field).getD (.arr []) with
    | .arr items =>
      match texts items with
      | none => .error (.value ("resume chain has malformed " ++ field))
      | some names =>
        match one with
        | none => .ok (some (.arr ((sortedSet names).map .str)))
        | some (.str name) => .ok (some (.arr ((sortedSet (names ++ [name])).map .str)))
        | some (.arr _) => .error .typeError
        | some (.obj _) => .error .typeError
        | some other => if names = [] then .ok (some (.arr [other])) else .error .typeError
    | _ => .error (.value ("resume chain has malformed " ++ field))

/-- The authorities of an envelope, in the order in which they are looked at. -/
def authorityValues (source : Fields φ) : Except Raised (Fields φ) := do
  let tasks ← identities source "task_ids" (some "task_id")
  let requirements ← identities source "requirement_ids" none
  return (plainKeys.filterMap fun key => (source.lookup key).map fun value => (key, value)) ++
    (tasks.map fun value => ("task_ids", value)).toList ++
      (requirements.map fun value => ("requirement_ids", value)).toList

/-- A path is resolved against the project. -/
def Reader.normalized (r : Reader φ) (key : String) (value : Json φ) : Except Raised (Json φ) :=
  if key ∈ pathKeys then
    match r.locate (r.str value) with
    | some path => .ok (.str path)
    | none => .error .path
  else .ok value

/-- `authorities[key] != value`, where only one value of a document is not equal to itself. -/
def Reader.differs (r : Reader φ) (before value : Json φ) : Bool :=
  decide (¬ before.Equal r.value value) || decide (value.meaning r.value = .nonFinite .nan)

/-- One authority of an entry. -/
def Reader.carry (r : Reader φ) (original : Bool) (authorities : Fields φ) (found : String × Json φ) :
    Except Raised (Fields φ) := do
  let value ← r.normalized found.1 found.2
  if (authorities.lookup found.1).any (r.differs · value) then
    .error (.value ("resume chain has conflicting " ++ found.1))
  else if original = false ∧ (authorities.lookup found.1).isNone ∧ found.1 ∈ originalKeys then
    .error (.value ("resume wrapper cannot introduce " ++ found.1))
  else .ok (setField authorities found.1 value)

/-- The identities of children that were named, and the authorities. -/
structure Gathered (φ : Type) where
  childIds : List String := []
  authorities : Fields φ := []

def Reader.gatherSource (r : Reader φ) (original : Bool) (g : Gathered φ) (source : Fields φ) :
    Except Raised (Gathered φ) := do
  let values ← authorityValues source
  let authorities ← values.foldlM (r.carry original) g.authorities
  return ⟨g.childIds ++ ((source.lookup "child_session_id").map r.str).toList, authorities⟩

/-- An entry, beside the child of the original. -/
def Reader.gatherEntry (r : Reader φ) (child : Option WorkflowRef) (g : Gathered φ) (entry : Bool × WorkflowHandoff φ) :
    Except Raised (Gathered φ) :=
  if entry.2.child.isSome ∧ entry.2.child ≠ child then .error (.value "resume chain names conflicting children")
  else
    (routeSources entry.2.payload).foldlM (r.gatherSource entry.1)
      { g with childIds := g.childIds ++ (entry.2.child.map WorkflowRef.nativeId).toList }

/-- The original before the wrappers, the outermost last. -/
def originalFirst (chain : List (WorkflowHandoff φ)) : List (Bool × WorkflowHandoff φ) :=
  match chain.reverse with
  | [] => []
  | original :: wrappers => (true, original) :: wrappers.map (false, ·)

def checkChain (r : Reader φ) (chain : List (WorkflowHandoff φ)) : Except Raised (List (WorkflowHandoff φ)) := do
  let child := chain.getLast?.bind WorkflowHandoff.child
  let g ← (originalFirst chain).foldlM (r.gatherEntry child) {}
  let childIds := g.childIds.dedup
  if 1 < childIds.length ∨ "" ∈ childIds then
    let bound := (child.map WorkflowRef.nativeId).getD ""
    .error (.identity ((chain.getLast?.map WorkflowHandoff.handoffId).getD "") bound
      ((if bound ∈ childIds then [bound] else []) ++ sortedSet (childIds.filter (· ≠ bound))))
  else .ok chain

/-- A handoff, or the identity of one. -/
inductive Requested (φ : Type)
  | id (handoffId : String)
  | entry (handoff : WorkflowHandoff φ)

/-- `resolve_handoff_chain` -/
def Reader.resolveHandoffChain (r : Reader φ) (store : String → Stored φ) (workflowId : String) :
    Requested φ → Except Raised (List (WorkflowHandoff φ))
  | .id requested => do
    let current ← r.loadHandoff store requested
    let chain ← r.follow store workflowId maxResumeDepth [] requested current
    checkChain r chain
  | .entry handoff => do
    let chain ← r.follow store workflowId maxResumeDepth [] handoff.handoffId handoff
    checkChain r chain

end AutoAgents.Resume
