import AutoAgents.GitArchive
import AutoAgents.StoreCalls

/-! The collectors of owned resources: the registered resources with what stands at their places, the archive of commits,
`collect` over the resources and `collect_git` over the archive. What the file system, docker and git do at a call is given
with the call. -/

namespace AutoAgents

open Base
open Git (Commit Archive)

/-! ### Resources -/

/-- The managed folders, side by side in the owned storage, and what docker has. -/
inductive Place
  | domain (work : String)
  | verification (work : String)
  | workspace (work : String)
  | operation (id : OperationId)
  | docker (name : String)
  deriving DecidableEq

inductive ResourceKind
  | workspace
  | cache
  | scratch
  | docker
  deriving DecidableEq, Repr

/-- The kind that a place is registered with; `docker` stands for the kinds that start with `docker_`. -/
def Place.kind : Place → ResourceKind
  | domain _ => .cache
  | verification _ => .cache
  | workspace _ => .workspace
  | operation _ => .scratch
  | docker _ => .docker

inductive ArtifactState
  | live
  | released
  | deleting
  | deleted
  deriving DecidableEq, Repr

structure Metadata where
  dockerId : Option String := none
  ownerLabel : Option String := none
  currentRecipe : Bool := false
  deriving DecidableEq, Repr

/-- A row of `artifacts`. -/
structure Artifact where
  place : Place
  owner : String
  identity : Nat
  refs : List String
  metadata : Metadata := {}
  state : ArtifactState := .live
  created : Int
  deriving DecidableEq

structure DockerItem where
  label : Option String
  running : Bool
  deriving DecidableEq, Repr

/-- The namespaces of references. -/
inductive RefName
  | candidates (work : String)
  | snapshots (revision : Commit)
  | imports (item : String)
  | offline (work : String)
  | other (name : String)
  deriving DecidableEq

/-- `ref.startswith(("refs/candidates/", "refs/snapshots/", "refs/imports/", "refs/offline/"))` -/
def RefName.managed : RefName → Bool
  | other _ => false
  | _ => true

/-- The record `workspace_snapshot:<work>`, as far as it names commits. -/
structure RetainedSnapshot where
  head : Commit
  revision : Commit

/-- The business store, the registered resources, what stands at their places (by its identity), and the archive. -/
structure Custody where
  db : DB
  artifacts : Table Artifact.place
  files : Place → Option Nat
  docker : String → Option DockerItem
  archive : Archive RefName Place
  retained : String → Option RetainedSnapshot

namespace Custody

/-- `register` -/
def register (s : Custody) (place : Place) (owner : String) (identity : Nat) (refs : List String) (metadata : Metadata)
    (now : Int) : Custody :=
  { s with artifacts := s.artifacts.insertOrReplace { place, owner, identity, refs, metadata, created := now } }

/-- `release` -/
def release (s : Custody) (owner : String) : Custody :=
  { s with
    artifacts := s.artifacts.map (fun row => if row.owner = owner then { row with refs := [], state := .released } else row)
      fun row => by split <;> rfl }

/-- The unresolved operations of an owner. -/
def pending (s : Custody) (owner : String) : List Operation :=
  s.db.operations.rows.filter fun op => op.work == owner && op.state.unresolved

end Custody

/-! ### Collection of resources -/

/-- What one `collect` meets: the deadline, places that leave the managed folder, removals that fail (with what stood there
gone or not), the lengths of stored texts, and where git fails. -/
structure Sweep where
  late : Place → Bool := fun _ => false
  astray : Place → Bool := fun _ => false
  fault : Place → Option Bool := fun _ => none
  longResult : Operation → Bool := fun _ => false
  longInputs : Operation → Bool := fun _ => false
  now : Int := 0
  gitGc : Bool := false
  gitFails : Option Nat := none

section

-- how the identity of an operation is written
variable (spell : OperationId → List Char)

/-- `str(row["path"])`. -/
def Place.path : Place → List Char
  | domain work => "owned/domain/".toList ++ work.toList
  | verification work => "owned/verification/".toList ++ work.toList
  | workspace work => "owned/workspaces/".toList ++ work.toList
  | operation id => "owned/operations/".toList ++ spell id
  | docker name => name.toList

namespace Custody

/-- The rows that `collect` looks at. -/
def selected (s : Custody) (row : Artifact) : Bool :=
  row.state == .released || row.state == .deleting ||
    row.place.kind == .scratch && s.db.operations.rows.any fun op => op.work == row.owner && op.state.settled

/-- The row is passed over: something unresolved, or a reference, still needs it. -/
def passesOver (s : Custody) (row : Artifact) : Bool :=
  if row.place.kind = .scratch then (s.pending row.owner).any fun op => (spell op.id).isSuffixOf (row.place.path spell)
  else !(s.pending row.owner).isEmpty || !row.refs.isEmpty

def setState (s : Custody) (place : Place) (state : ArtifactState) : Custody :=
  { s with
    artifacts := s.artifacts.modify place
      (fun row => { row with state, metadata := if state = .deleted then {} else row.metadata }) fun _ => rfl }

/-- What stands at a place goes. A workspace is removed as a worktree. -/
def removeAt (s : Custody) (place : Place) : Custody :=
  { s with
    files := Function.update s.files place none
    archive := if place.kind = .workspace then s.archive.removeWorktree place else s.archive.loseFolder place }

/-- What stands at a place goes, and git has not noticed. -/
def loseAt (s : Custody) (place : Place) : Custody :=
  { s with files := Function.update s.files place none, archive := s.archive.loseFolder place }

/-- `remove_docker`; `none` is an error. -/
def removeDocker (s : Custody) (fault : Option Bool) (metadata : Metadata) : Custody × Bool :=
  match metadata.dockerId, metadata.ownerLabel with
  | some identity, some owner =>
      match s.docker identity with
      | none => (s, true)
      | some item =>
          if item.label ≠ some owner then (s, false)
          else if item.running then (s, true)
          else if metadata.currentRecipe then (s, true)
          else
            let gone := { s with docker := Function.update s.docker identity none }
            match fault with
            | none => (gone, true)
            | some true => (gone, false)
            | some false => (s, false)
  | _, _ => (s, false)

/-- One turn of `collect`. -/
def sweepRow (c : Sweep) (s : Custody) (row : Artifact) : Custody :=
  if s.passesOver spell row then s
  else if row.place.kind = .docker then
    match s.removeDocker (c.fault row.place) row.metadata with
    | (s, true) => s.setState row.place .deleted
    | (s, false) => s
  else if c.astray row.place then s
  else match s.files row.place with
    | none => s.setState row.place .deleted
    | some identity =>
        if identity ≠ row.identity then s
        else match c.fault row.place with
          | none => ((s.setState row.place .deleting).removeAt row.place).setState row.place .deleted
          | some true => (s.setState row.place .deleting).loseAt row.place
          | some false => s.setState row.place .deleting

/-- The loop of `collect`. The rows were read before it. -/
def sweepRows (c : Sweep) (s : Custody) : List Artifact → Custody
  | [] => s
  | row :: rest => if c.late row.place then s else sweepRows c (s.sweepRow spell c row) rest

/-! ### Collection of commits -/

/-- The works of workflows in which something is alive or unresolved. -/
def live (s : Custody) : List Work :=
  let pending := (s.db.operations.rows.filter (·.state.unresolved)).map (·.work)
  let workflows := (s.db.works.rows.filter fun w => !w.status.terminal || pending.contains w.id).map (·.workflow)
  s.db.works.rows.filter fun w => workflows.contains w.workflow

/-- The candidates of a work item, in its context and in its result. -/
def candidates (w : Work) : List Commit :=
  (w.context.candidate.map (·.revision)).toList ++ (w.result.candidate.map (·.revision)).toList

/-- The revisions that are kept. -/
def keep (s : Custody) : Except ControlError (List Commit) := do
  let sources ← s.live.mapM fun w => do
    let contract ← s.db.contract w.contract
    return contract.source
  return sources ++ s.live.flatMap candidates

/-- `collect_git`, up to the reference at which git fails. -/
def collectGit (fails : Option Nat) (s : Custody) : Custody :=
  match s.keep with
  | .error _ => s
  | .ok keep =>
      let deleted := s.archive.deleteRefs (fun ref => ref.name.managed && !keep.contains ref.revision) fails
      { s with archive := if fails = none then deleted.prune else deleted }

/-- `collect`, with `collect_git` at its end where it is asked for. -/
def collect (c : Sweep) (s : Custody) : Custody :=
  let swept := s.sweepRows spell c (s.artifacts.rows.filter s.selected)
  let done : Custody :=
    { swept with
      db := swept.db.collect c.longResult c.longInputs
      artifacts := swept.artifacts.filter fun row => !(row.state == .deleted && decide (row.created < c.now - 7 * 86400)) }
  if c.gitGc then done.collectGit c.gitFails else done

end Custody

end

end AutoAgents
