import AutoAgents.BaseExcept
import AutoAgents.BaseRun
import AutoAgents.BaseTable

/-! The store of the maintenance supervisor. A job is one payload, read and written whole inside a
transaction; the processes that supervise it hold copies of it, which may be old. -/

namespace AutoAgents.Watch

open Base Base.Table

/-- `STATES`. -/
inductive JobState
  | running
  | repairing
  | verifying
  | restarting
  | done
  | stopped
  deriving DecidableEq, Repr

/-- A model call that was dispatched and not settled. -/
structure ActiveCall where
  role : String
  number : Nat
  dispatchedAt : Nat
  deriving DecidableEq, Repr

/-- The payload of a job. What only other components read is kept as it was saved, under its key. -/
structure Job where
  id : String
  argv : List String
  project : String
  cwd : String
  engine : String
  state : JobState := .running
  attempts : Nat := 0
  modelCalls : Nat := 0
  noProgress : Nat := 0
  bestPassed : List String := []
  created : Nat
  publication : String := "not_requested"
  rootId : Option String := none
  selectedWork : Option String := none
  process : Option String := none
  /-- `resume_token["root_id"]`. -/
  resumeRoot : Option String := none
  maintenanceStarted : Option Nat := none
  updated : Option Nat := none
  lastResumeRequested : Option Nat := none
  cancelRequested : Bool := false
  activeCall : Option ActiveCall := none
  supersededBy : Option String := none
  predecessor : Option String := none
  others : List (String × String) := []
  deriving DecidableEq, Repr

/-- What the callers of `save` change. -/
structure Changes where
  argv : Option (List String) := none
  noProgress : Option Nat := none
  bestPassed : Option (List String) := none
  publication : Option String := none
  rootId : Option (Option String) := none
  process : Option (Option String) := none
  resumeRoot : Option (Option String) := none
  maintenanceStarted : Option Nat := none
  cancelRequested : Option Bool := none
  others : List (String × String) := []
  deriving DecidableEq, Repr

/-- The row of the table `attempts`: the receipt of one model call. -/
structure Attempt where
  job : String
  number : Nat
  call : ActiveCall
  result : String
  deriving DecidableEq, Repr

def Attempt.key (a : Attempt) : String × Nat := (a.job, a.number)

structure Store where
  jobs : Table Job.id
  attempts : Table Attempt.key

def Store.empty : Store := ⟨.empty, .empty⟩

/-! ### The rows that the methods write -/

/-- `save`: the changes over the stored payload; a cancellation is never taken back. -/
def Job.saved (changes : Changes) (state : Option JobState) (now : Nat) (previous : Job) : Job :=
  { previous with
    argv := changes.argv.getD previous.argv
    noProgress := changes.noProgress.getD previous.noProgress
    bestPassed := changes.bestPassed.getD previous.bestPassed
    publication := changes.publication.getD previous.publication
    rootId := changes.rootId.getD previous.rootId
    process := changes.process.getD previous.process
    resumeRoot := changes.resumeRoot.getD previous.resumeRoot
    maintenanceStarted := changes.maintenanceStarted.or previous.maintenanceStarted
    others := changes.others ++ previous.others.filter fun old => !(changes.others.map Prod.fst).contains old.1
    updated := some now
    state := state.getD previous.state
    cancelRequested := previous.cancelRequested || changes.cancelRequested.getD false }

/-- `reserve`: one more call, and one more attempt when it implements. -/
def Job.reserved (role : String) (now : Nat) (current : Job) : Job :=
  { current with
    modelCalls := current.modelCalls + 1
    attempts := current.attempts + if role = "implement" then 1 else 0
    activeCall := some ⟨role, current.modelCalls + 1, now⟩ }

def Job.settled (previous : Job) : Job := { previous with activeCall := none }

/-- `acknowledge_resume`. -/
def Job.acknowledged (now : Nat) (current : Job) : Job :=
  { current with cancelRequested := false, lastResumeRequested := some now }

/-- The job that takes over: its inputs are new, its accounting is that of the job it replaces. -/
def Job.successorOf (identity : String) (argv : List String) (cwd : String) (now : Nat) (current : Job) :
    Job :=
  { id := identity, argv, project := current.project, cwd, engine := current.engine, created := now
    predecessor := some current.id
    rootId := current.rootId.or current.resumeRoot
    selectedWork := current.selectedWork.or current.resumeRoot
    maintenanceStarted := some (current.maintenanceStarted.getD current.created)
    cancelRequested := current.cancelRequested
    attempts := current.attempts
    modelCalls := current.modelCalls
    noProgress := current.noProgress
    bestPassed := current.bestPassed }

def Job.superseded (identity : String) (current : Job) : Job :=
  { current with supersededBy := some identity }

/-! ### The transactions -/

/-- What a launcher asks `admit` for. -/
structure Admission where
  identity : String
  argv : List String
  project : String
  engine : String
  cwd : String
  now : Nat
  rootId : Option String := none
  selectedWork : Option String := none

def Admission.job (a : Admission) : Job :=
  { id := a.identity, argv := a.argv, project := a.project, cwd := a.cwd, engine := a.engine,
    created := a.now, rootId := a.rootId, selectedWork := a.selectedWork }

namespace Store

/-- The payload of a job; an unknown identity has no row to decode. -/
def payload (s : Store) (identity : String) : Except String Job :=
  match s.jobs.find identity with
  | some job => .ok job
  | none => .error "'NoneType' object is not subscriptable"

def addJob (s : Store) (job : Job) : Except String Store :=
  match s.jobs.insert? job with
  | some jobs => .ok { s with jobs }
  | none => .error "UNIQUE constraint failed: jobs.id"

/-- `UPDATE jobs SET payload=? WHERE id=?`. -/
def update (s : Store) (identity : String) (f : Job → Job) (hf : ∀ job, (f job).id = job.id) : Store :=
  { s with jobs := s.jobs.modify identity f hf }

/-- The jobs that `admit` may select instead of a new one. -/
def retained (s : Store) (a : Admission) (accepts : Job → Bool) : List Job :=
  s.jobs.rows.filter fun job =>
    job.project == a.project && job.engine == a.engine && job.supersededBy.isNone && accepts job

/-- `admit`: a retained job that matches, or a new one. -/
def admitJob (s : Store) (a : Admission) (accepts : Option (Job → Bool)) : Except String Store :=
  match accepts with
  | some accepts => if s.retained a accepts ≠ [] then .ok s else s.addJob a.job
  | none => s.addJob a.job

def save (s : Store) (identity : String) (state : Option JobState) (changes : Changes) (now : Nat) :
    Except String Store := do
  let _ ← s.payload identity
  pure (s.update identity (Job.saved changes state now) fun _ => rfl)

def reserve (s : Store) (identity role : String) (maxCalls : Option Nat) (now : Nat) :
    Except String Store := do
  let current ← s.payload identity
  if current.cancelRequested = true then .error "Maintenance cancelled; another model dispatch refused"
  else if current.activeCall.isSome = true then
    .error "Reconcile the previous model call before another dispatch"
  else if (∃ limit ∈ maxCalls, limit ≤ current.modelCalls) then .error "Configured model-call limit reached"
  else pure (s.update identity (Job.reserved role now) fun _ => rfl)

/-- `settle`: the receipt of the call that the caller's copy of the job shows as active. -/
def settle (s : Store) (copy : Job) (result : String) : Except String Store := do
  let previous ← s.payload copy.id
  match previous.activeCall with
  | none => .error "Maintenance call changed before settlement"
  | some call =>
    if some call ≠ copy.activeCall then .error "Maintenance call changed before settlement"
    else
      pure { s.update copy.id Job.settled (fun _ => rfl) with
        attempts := s.attempts.insertOrReplace ⟨copy.id, call.number, call, result⟩ }

/-- `successor`, with the process of the replaced job alive or not. -/
def successor (s : Store) (previous identity : String) (argv : List String) (cwd : String) (now : Nat)
    (alive : Bool) : Except String Store := do
  let current ← s.payload previous
  if current.activeCall.isSome = true then
    .error "Reconcile the previous model call before replacing maintenance inputs"
  else if alive = true then .error "Original process is still alive; duplicate execution refused"
  else if current.supersededBy.isSome = true then pure s
  else if current.state ≠ .stopped then .error "Only a stopped maintenance job can be replaced"
  else do
    let s ← s.addJob (current.successorOf identity argv cwd now)
    pure (s.update previous (Job.superseded identity) fun _ => rfl)

def acknowledgeResume (s : Store) (identity : String) (now : Nat) : Except String Store := do
  let _ ← s.payload identity
  pure (s.update identity (Job.acknowledged now) fun _ => rfl)

end Store

/-! ### The processes -/

/-- The writing methods, with their arguments. A copy of a job may be of any earlier moment. -/
inductive Call
  | admitJob (admission : Admission) (accepts : Option (Job → Bool))
  | save (job : String) (state : Option JobState) (changes : Changes) (now : Nat)
  | reserve (job role : String) (maxCalls : Option Nat) (now : Nat)
  | settle (copy : Job) (result : String)
  | successor (previous identity : String) (argv : List String) (cwd : String) (now : Nat) (alive : Bool)
  | acknowledgeResume (job : String) (now : Nat)

namespace Call

def exec (s : Store) : Call → Except String Store
  | admitJob admission accepts => s.admitJob admission accepts
  | save job state changes now => s.save job state changes now
  | reserve job role maxCalls now => s.reserve job role maxCalls now
  | settle copy result => s.settle copy result
  | successor previous identity argv cwd now alive => s.successor previous identity argv cwd now alive
  | acknowledgeResume job now => s.acknowledgeResume job now

/-- The store after a call; an error rolls its transaction back. -/
def after (s : Store) (call : Call) : Store :=
  match call.exec s with
  | .ok s' => s'
  | .error _ => s

end Call

/-- Any interleaving of the processes, from an empty store. -/
def storeSystem : System Store Call where
  start s := s = .empty
  step s call t := t = call.after s

end AutoAgents.Watch
