import AutoAgents.BaseRun

/-! The loop that supervises a tree of traced tasks. It takes the reports of the kernel one by one: a stop of a task, or
its end. A task that stopped is resumed only where its tuple of policies is known, from the creation event of its
creator or an exec of its thread group. The kernel may deliver the first stop or the end of a task before the creation
event. -/

namespace AutoAgents.Tracing

open Base

abbrev Pid := Nat

/-- What a stop reports: a signal that is delivered, the creation of a task, an exec that a thread called, or a system call that
asks for something, with the policy that it adds. -/
inductive Event (Policy : Type)
  | signal (number : Nat)
  | creation (child : Pid)
  | exec (former : Pid)
  | seccomp (added : Option Policy)

def sigstop : Nat := 19

/-! ### The loop -/

structure Loop (Policy : Type) where
  tasks : Pid → Option (List Policy)
  pending : Pid → Bool := fun _ => false
  retired : Pid → Bool := fun _ => false
  exitedBeforeRegistration : Pid → Bool := fun _ => false

section

variable {Policy : Type}

/-- The end of a task was reported. -/
def Loop.exited (loop : Loop Policy) (pid : Pid) : Loop Policy where
  tasks := Function.update loop.tasks pid none
  pending := Function.update loop.pending pid false
  retired := Function.update loop.retired pid false
  exitedBeforeRegistration :=
    if (loop.tasks pid).isSome ∨ loop.retired pid = true then loop.exitedBeforeRegistration
    else Function.update loop.exitedBeforeRegistration pid true

/-- An exec event. The tuple of the thread that called exec goes to the task that is left. -/
def Loop.execed (loop : Loop Policy) (pid former : Pid) : Except String (Loop Policy × List Pid) :=
  match loop.tasks former with
  | none => .error "metadata exec task has no registered origin policy"
  | some policies =>
      let moved := if former = pid then loop else { loop with
        tasks := Function.update (Function.update loop.tasks former none) pid (some policies)
        retired := Function.update loop.retired former true }
      .ok ({ moved with pending := Function.update moved.pending pid false }, [pid])

/-- A creation event, of a task with these policies. -/
def Loop.created (loop : Loop Policy) (pid : Pid) (policies : List Policy) (child : Pid) : Except String (Loop Policy × List Pid) :=
  if loop.exitedBeforeRegistration child = true then
    .ok ({ loop with exitedBeforeRegistration := Function.update loop.exitedBeforeRegistration child false }, [pid])
  else if (loop.tasks child).isSome then .error "metadata child already has an active policy"
  else
    let registered := { loop with
      retired := Function.update loop.retired child false
      tasks := Function.update loop.tasks child (some policies) }
    if loop.pending child = true then .ok ({ registered with pending := Function.update registered.pending child false }, [child, pid])
    else .ok (registered, [pid])

/-- The stop of a task was reported, and the tasks that are resumed. Where the task is lost, it was killed before the calls to
ptrace reached it. -/
def Loop.stopped (loop : Loop Policy) (pid : Pid) (event : Event Policy) (lost : Bool) : Except String (Loop Policy × List Pid) :=
  match event with
  | .exec former => if lost = true then .ok (loop, []) else loop.execed pid former
  | .creation child =>
      match loop.tasks pid with
      | none => .error "metadata event arrived without a registered parent policy"
      | some policies => if lost = true then .ok (loop, []) else loop.created pid policies child
  | .seccomp added =>
      match loop.tasks pid with
      | none => .error "metadata event arrived without a registered parent policy"
      | some policies => .ok ({ loop with tasks := Function.update loop.tasks pid (some (policies ++ added.toList)) },
          if lost = true then [] else [pid])
  | .signal number =>
      match loop.tasks pid with
      | none =>
          if number = sigstop then .ok ({ loop with pending := Function.update loop.pending pid true }, [])
          else .error "metadata event arrived without a registered parent policy"
      | some _ => .ok (loop, [pid])

/-! ### The kernel -/

/-- Where a task is: attached with its first stop to be reported, in that stop, running, in a later stop that is to be reported,
or dead with its end to be reported, after it ran or before. -/
inductive Phase (Policy : Type)
  | born (number : Nat)
  | held
  | running
  | stopped (event : Event Policy)
  | dead (ran : Bool)

def Phase.ran : Phase Policy → Bool
  | .born _ => false
  | .held => false
  | .running => true
  | .stopped _ => true
  | .dead ran => ran

def Phase.isDead : Phase Policy → Bool
  | .dead _ => true
  | _ => false

/-- A task, with the policies that its creator had when it was created. -/
structure Task (Policy : Type) where
  policies : List Policy
  phase : Phase Policy

structure World (Policy : Type) where
  kernel : Pid → Option (Task Policy)
  loop : Loop Policy
  ended : Bool := false

/-- What the calls to ptrace make of a task. -/
def Task.settle (k : Task Policy) (reported lost resumed : Bool) : Task Policy :=
  if k.phase.isDead = true then k
  else if reported = true ∧ lost = true then { k with phase := .dead k.phase.ran }
  else if resumed = true then { k with phase := .running }
  else if reported = true then { k with phase := .held }
  else k

def World.settled (w : World Policy) (pid : Pid) (lost : Bool) : Except String (Loop Policy × List Pid) → World Policy
  | .error _ => { w with ended := true }
  | .ok (loop, resumed) =>
      { w with loop := loop, kernel := fun r => (w.kernel r).map fun k => k.settle (r == pid) lost (resumed.contains r) }

inductive Move (Policy : Type)
  | spawn (creator child : Pid) (number : Nat)
  | stop (pid : Pid) (event : Event Policy)
  | exec (thread pid : Pid)
  | finish (pid : Pid)
  | report (pid : Pid) (lost : Bool)

/-- A report that the loop takes. -/
def World.reported (leader : Pid) (w : World Policy) (pid : Pid) (lost : Bool) : Phase Policy → Option (World Policy)
  | .dead _ => some { kernel := Function.update w.kernel pid none, loop := w.loop.exited pid, ended := decide (pid = leader) }
  | .born number => some (w.settled pid lost (w.loop.stopped pid (.signal number) lost))
  | .stopped event => some (w.settled pid lost (w.loop.stopped pid event lost))
  | .held => none
  | .running => none

def World.put (w : World Policy) (pid : Pid) (k : Task Policy) : World Policy := { w with kernel := Function.update w.kernel pid (some k) }

def World.free (w : World Policy) (pid : Pid) : World Policy := { w with kernel := Function.update w.kernel pid none }

/-- What may happen: a running task creates another, stops, or calls exec, which leaves the id of the leader of its thread group
and frees its own; any task dies; the loop takes a report. -/
inductive Moves (leader : Pid) (w : World Policy) : Move Policy → World Policy → Prop
  | spawn {creator child : Pid} {number : Nat} {k : Task Policy} : w.kernel creator = some k → k.phase = .running →
      w.kernel child = none → Moves leader w (.spawn creator child number)
        ((w.put creator ⟨k.policies, .stopped (.creation child)⟩).put child ⟨(w.loop.tasks creator).getD [], .born number⟩)
  | signal {pid : Pid} {number : Nat} {k : Task Policy} : w.kernel pid = some k → k.phase = .running →
      Moves leader w (.stop pid (.signal number)) (w.put pid ⟨k.policies, .stopped (.signal number)⟩)
  | seccomp {pid : Pid} {added : Option Policy} {k : Task Policy} : w.kernel pid = some k → k.phase = .running →
      Moves leader w (.stop pid (.seccomp added)) (w.put pid ⟨k.policies, .stopped (.seccomp added)⟩)
  | exec {thread pid : Pid} {k old : Task Policy} : w.kernel thread = some k → k.phase = .running → w.kernel pid = some old →
      old.phase.ran = true → Moves leader w (.exec thread pid) ((w.free thread).put pid ⟨k.policies, .stopped (.exec thread)⟩)
  | finish {pid : Pid} {k : Task Policy} : w.kernel pid = some k → k.phase.isDead = false →
      Moves leader w (.finish pid) (w.put pid ⟨k.policies, .dead k.phase.ran⟩)
  | report {pid : Pid} {lost : Bool} {k : Task Policy} {w' : World Policy} : w.ended = false → w.kernel pid = some k →
      w.reported leader pid lost k.phase = some w' → Moves leader w (.report pid lost) w'

/-- The runs of the supervisor, from the launch of the leader under one policy. -/
def supervisor (leader : Pid) (policy : Policy) : System (World Policy) (Move Policy) where
  start w := w = { kernel := Function.update (fun _ => none) leader (some ⟨[policy], .running⟩)
                   loop := { tasks := Function.update (fun _ => none) leader (some [policy]) } }
  step w move w' := Moves leader w move w'

end

end AutoAgents.Tracing
