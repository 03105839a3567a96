import AutoAgents.BaseRun

/-! The overlapped gate plan: one lane of serial commands, and groups of commands that run one after the other beside
it. The steps of the scheduler are the places of its loop, so that every moment at which a command is handed to the pool
or taken from it is a state of a run. Which running commands complete, in which order and with which outcome is chosen
by the environment. -/

namespace AutoAgents.Gates

/-- What a command reports. `detail` is what the summary of a failure prints of it. -/
structure CommandResult where
  command : String
  ok : Bool
  terminationReason : String := ""
  infrastructureError : Bool := false
  detail : String := ""
  deriving DecidableEq, Repr

structure GateResult where
  ok : Bool
  commands : List CommandResult
  summary : String
  deriving DecidableEq, Repr

structure GateParallelGroup where
  name : String := ""
  commands : List String := []
  deriving DecidableEq, Repr

/-- What a gate executor says of commands. Where it has no `capacity` or no `required_slots`, or these do not
return a number, there is none. -/
structure Executor (ρ : Type) where
  capacity : Option Int
  requiredSlots : String → Option Int
  exclusive : String → Bool
  priority : String → ρ

/-- The arguments of a gate plan. -/
structure Plan (ρ : Type) where
  commands : List String
  parallelGroups : List GateParallelGroup
  collectAll : Bool
  parallelWorkers : Int
  executor : Executor ρ

/-- The place of a command in its plan: its index in the serial lane, or its group and its index there. -/
inductive Spot
  | serial (commandIndex : Nat)
  | parallel (groupIndex commandIndex : Nat)
  deriving DecidableEq, Repr

structure Scheduled where
  spot : Spot
  command : String
  slots : Nat
  deriving DecidableEq, Repr

/-- What the future of a command holds. -/
abbrev Outcome := Except String CommandResult

def Spot.serialIndex : Spot → Option Nat
  | .serial index => some index
  | .parallel _ _ => none

def Spot.group : Spot → Option Nat
  | .serial _ => none
  | .parallel group _ => some group

section

variable {ρ : Type}

/-- `_executor_capacity`. -/
def Plan.slotCapacity (P : Plan ρ) : Nat := (max 1 (P.executor.capacity.getD P.parallelWorkers)).toNat

def Plan.jobCapacity (P : Plan ρ) : Nat := (max 1 (min P.parallelWorkers P.slotCapacity)).toNat

/-- `_executor_required_slots`, with the capacity of the plan. -/
def Plan.slots (P : Plan ρ) (command : String) : Nat :=
  match P.executor.requiredSlots command with
  | some slots => min P.slotCapacity (max 1 slots).toNat
  | none => 1

/-- `_ordered_parallel_commands`: by priority and then by index. -/
def orderedParallelCommands [LinearOrder ρ] (executor : Executor ρ) (commands : List String) : List (Nat × String) :=
  let before (a b : Nat × String) : Prop :=
    executor.priority a.2 < executor.priority b.2 ∨ executor.priority a.2 = executor.priority b.2 ∧ a.1 ≤ b.1
  (commands.zipIdx.map Prod.swap).insertionSort before

/-- The local variables of the scheduler. `submitted` is what the pool was given, in order. -/
structure Scheduler where
  pendingGroups : List (List (Nat × String))
  serialNext : Nat := 0
  groupIndex : Nat := 0
  running : List Scheduled := []
  results : List (Spot × CommandResult) := []
  stopDispatch : Bool := false
  fatalError : Option String := none
  submitted : List Scheduled := []
  deriving DecidableEq, Repr

namespace Scheduler

def usedSlots (s : Scheduler) : Nat := (s.running.map Scheduled.slots).sum

def serialRunning (s : Scheduler) : Bool := s.running.any fun item => item.spot.serialIndex.isSome

def exclusiveRunning (P : Plan ρ) (s : Scheduler) : Bool :=
  s.running.any fun item => P.executor.exclusive item.command

def groupIsRunning (s : Scheduler) (index : Nat) : Bool := s.running.any fun item => item.spot.group == some index

/-- The commands of a group that were not yet started. -/
def pending (s : Scheduler) (group : Nat) : List (Nat × String) := s.pendingGroups.getD group []

/-- The loop of `advance_completed_groups` over the groups from an index on. -/
def advanceOver (s : Scheduler) : List (List (Nat × String)) → Nat → Nat
  | [], index => index
  | pending :: rest, index =>
      if pending = [] ∧ s.groupIsRunning index = false then s.advanceOver rest (index + 1) else index

def advanceCompletedGroups (s : Scheduler) : Scheduler :=
  { s with groupIndex := s.advanceOver (s.pendingGroups.drop s.groupIndex) s.groupIndex }

def submit (s : Scheduler) (item : Scheduled) : Scheduler :=
  { s with running := s.running ++ [item], submitted := s.submitted ++ [item] }

/-- The command fits beside what is running. -/
def fits (P : Plan ρ) (s : Scheduler) (command : String) : Bool :=
  decide (s.usedSlots + P.slots command ≤ P.slotCapacity) && (!P.executor.exclusive command || s.running.isEmpty)

/-- The next command of the serial lane, if it can be started now. -/
def startSerial (P : Plan ρ) (s : Scheduler) : Option Scheduler :=
  match P.commands[s.serialNext]? with
  | none => none
  | some command =>
      if s.serialRunning = false ∧ s.running.length < P.jobCapacity ∧ s.exclusiveRunning P = false ∧
          s.fits P command = true then
        some { s.submit ⟨.serial s.serialNext, command, P.slots command⟩ with serialNext := s.serialNext + 1 }
      else none

/-- The first command of a group that fits, started. -/
def startFrom (P : Plan ρ) (s : Scheduler) (group : Nat) : Option (Scheduled × Scheduler) :=
  let fitting : Nat × String → Bool := fun entry => s.fits P entry.2
  match (s.pending group).find? fitting with
  | none => none
  | some (index, command) =>
      let item : Scheduled := ⟨.parallel group index, command, P.slots command⟩
      some (item, { s with pendingGroups := s.pendingGroups.set group ((s.pending group).eraseP fitting) }.submit item)

/-- A command of the head group, or else of the first later group that has one that fits. -/
def startParallel (P : Plan ρ) (s : Scheduler) : Option (Scheduled × Scheduler) :=
  match s.startFrom P s.groupIndex with
  | some started => some started
  | none =>
      (List.range' (s.groupIndex + 1) (s.pendingGroups.length - (s.groupIndex + 1))).findSome? (s.startFrom P)

/-- A completed command leaves the pool, and what it reports is kept. -/
def settle (P : Plan ρ) (s : Scheduler) (item : Scheduled) (outcome : Outcome) : Scheduler :=
  let s := { s with running := s.running.erase item }
  match outcome with
  | .error error => { s with fatalError := s.fatalError.or (some error), stopDispatch := true }
  | .ok result =>
      let halts := !result.ok && (!P.collectAll || result.terminationReason != "" || result.infrastructureError)
      { s with results := s.results ++ [(item.spot, result)], stopDispatch := s.stopDispatch || halts }

/-- Every command of the plan was started. -/
def exhausted (P : Plan ρ) (s : Scheduler) : Bool :=
  decide (P.commands.length ≤ s.serialNext) && decide (s.pendingGroups.length ≤ s.groupIndex)

end Scheduler

/-- The places of the loop. At `groups` and `check`, `made` is `made_progress`. At `waiting` the scheduler
waits for running commands, and at `draining` it takes the completed ones one after the other. `stuck` is
the error that no remaining command could be dispatched. -/
inductive Point
  | top
  | serial
  | groups (made : Bool)
  | check (made : Bool)
  | waiting
  | draining (completed : List (Scheduled × Outcome))
  | finished
  | stuck
  deriving Repr

/-- A moment of a run. -/
structure Moment where
  point : Point
  scheduler : Scheduler
  deriving Repr

/-- From one place of the loop to the next. Where the scheduler waits, the environment goes on; where it has
ended, nothing does. -/
def Plan.next (P : Plan ρ) (m : Moment) : Option Moment :=
  let s := m.scheduler
  match m.point with
  | .top =>
      let s := s.advanceCompletedGroups
      if s.stopDispatch = true then some ⟨.check false, s⟩ else some ⟨.serial, s⟩
  | .serial =>
      let started := s.startSerial P
      let made := started.isSome
      let s := started.getD s
      if s.groupIndex < s.pendingGroups.length ∧ s.exclusiveRunning P = false then some ⟨.groups made, s⟩
      else some ⟨.check made, s⟩
  | .groups made =>
      if s.pending s.groupIndex ≠ [] ∧ s.running.length < P.jobCapacity then
        match s.startParallel P with
        | some (item, s') =>
            if P.executor.exclusive item.command = true then some ⟨.check true, s'⟩ else some ⟨.groups true, s'⟩
        | none => some ⟨.check made, s⟩
      else some ⟨.check made, s⟩
  | .check made =>
      let s := s.advanceCompletedGroups
      if s.running = [] ∧ (s.stopDispatch = true ∨ s.exhausted P = true) then some ⟨.finished, s⟩
      else if s.running = [] ∧ made = false then some ⟨.stuck, s⟩
      else if made = true ∧ s.running.length < P.jobCapacity then some ⟨.top, s⟩
      else some ⟨.waiting, s⟩
  | .draining [] => some ⟨.top, s⟩
  | .draining ((item, outcome) :: rest) => some ⟨.draining rest, s.settle P item outcome⟩
  | .waiting => none
  | .finished => none
  | .stuck => none

/-- A step of the scheduler, or running commands that complete while it waits. -/
inductive Plan.Step (P : Plan ρ) (report : String → Outcome → Prop) : Moment → Unit → Moment → Prop
  | next {m m' : Moment} : P.next m = some m' → Step P report m () m'
  | completed {s : Scheduler} {completed : List (Scheduled × Outcome)} : completed ≠ [] →
      (completed.map Prod.fst).Subperm s.running → (∀ c ∈ completed, report c.1.command c.2) →
      Step P report ⟨.waiting, s⟩ () ⟨.draining completed, s⟩

def Plan.initial [LinearOrder ρ] (P : Plan ρ) : Moment :=
  ⟨.top, { pendingGroups := P.parallelGroups.map fun group => orderedParallelCommands P.executor group.commands }⟩

/-- The runs of the overlapped plan, with what its commands may report. -/
def Plan.overlapped [LinearOrder ρ] (P : Plan ρ) (report : String → Outcome → Prop) : Base.System Moment Unit where
  start m := m = P.initial
  step := P.Step report

/-- The results of the serial commands and of the groups, each in the order of the plan. -/
def Plan.collected (P : Plan ρ) (s : Scheduler) : List CommandResult :=
  (List.range P.commands.length).filterMap (fun index => s.results.lookup (.serial index)) ++
    P.parallelGroups.zipIdx.flatMap fun (group, groupIndex) =>
      (List.range group.commands.length).filterMap fun index => s.results.lookup (.parallel groupIndex index)

/-- The failures that are reported: those that were not cancelled, or else the first. -/
def reportable (failed : List CommandResult) : List CommandResult :=
  match failed.filter fun result => result.terminationReason != "cancelled" with
  | [] => failed.take 1
  | rest => rest

def summaryOf (failureSummary : CommandResult → String) (ok : Bool) (failed : List CommandResult) : String :=
  if ok = true then "all commands passed" else "; ".intercalate (failed.map failureSummary)

/-- What `_run_overlapped_gate_plan` returns once its loop has ended. -/
def Plan.result (P : Plan ρ) (failureSummary : CommandResult → String) (s : Scheduler) : Except String GateResult :=
  match s.fatalError with
  | some error => .error error
  | none =>
      let results := P.collected s
      let failed := results.filter fun result => !result.ok
      let total := P.commands.length + (P.parallelGroups.map fun group => group.commands.length).sum
      let ok := failed.isEmpty && decide (results.length = total)
      .ok ⟨ok, results, summaryOf failureSummary ok (reportable failed)⟩

/-! ### The phased plan -/

/-- The failure ends the phased plan at once. -/
def halts (collectAll : Bool) (result : CommandResult) : Bool :=
  result.terminationReason != "" || result.infrastructureError || !collectAll

/-- The serial commands, up to the first failure that ends the plan: the results, the failures among them,
and whether the plan goes on. -/
def phasedSerial (collectAll : Bool) (outcome : String → CommandResult) :
    List String → List CommandResult × List CommandResult × Bool
  | [] => ([], [], true)
  | command :: commands =>
      let result := outcome command
      if result.ok = true then
        let (results, failed, goesOn) := phasedSerial collectAll outcome commands
        (result :: results, failed, goesOn)
      else if halts collectAll result = true then ([result], [result], false)
      else
        let (results, failed, goesOn) := phasedSerial collectAll outcome commands
        (result :: results, result :: failed, goesOn)

/-- The groups, up to the first with a failure that ends the plan: the results, and the failures that the
summary names. -/
def phasedGroups (collectAll : Bool) (outcome : String → CommandResult) :
    List GateParallelGroup → List CommandResult × List CommandResult
  | [] => ([], [])
  | group :: groups =>
      let results := group.commands.map outcome
      let failed := results.filter fun result => !result.ok
      if failed.any (halts collectAll) = true then (results, reportable failed)
      else
        let (later, laterFailed) := phasedGroups collectAll outcome groups
        (results ++ later, reportable failed ++ laterFailed)

/-- `_run_phased_gate_plan`, where the outcome of a command is a function of the command. -/
def Plan.phased (P : Plan ρ) (failureSummary : CommandResult → String) (outcome : String → CommandResult) :
    GateResult :=
  let (results, failed, goesOn) := phasedSerial P.collectAll outcome P.commands
  if goesOn = true then
    let (later, laterFailed) := phasedGroups P.collectAll outcome P.parallelGroups
    let failures := failed ++ laterFailed
    ⟨failures.isEmpty, results ++ later, summaryOf failureSummary failures.isEmpty failures⟩
  else ⟨false, results, summaryOf failureSummary false failed⟩

end

end AutoAgents.Gates
