import AutoAgents.EngineTasks

/-! Children of planned tasks. A batch names the task of every child in the transaction that creates it; a
task that starts by itself names it only in a later one, and discarding a finished child forgets it. -/

namespace AutoAgents

open Base Base.Table Program

/-- Tasks start in batches, and no child of a planned task is discarded. -/
def InBatches (cfg : Config) (s : Engine) : Turn Move → Prop
  | .begin _ (.step id o) =>
      ∀ w, s.now.works.find id = some w → w.status = .running → ¬ w.StartsAlone cfg o
  | .begin _ (.archive id) =>
      ∀ w, s.now.works.find id = some w → w.parent = none ∨ w.planned = none
  | _ => True

/-- What the programs of such runs do. -/
def batchPermits : Permits := ⟨False, True, fun w => w.parent = none ∨ w.planned = none⟩

theorem InBatches.begins {cfg : Config} {s : Engine} {turn : Turn Move} (h : InBatches cfg s turn) :
    Engine.Begins cfg batchPermits s turn := by
  rintro i move rfl
  cases move with
  | step id o => exact h
  | archive id => exact h
  | answer => exact fun _ => trivial
  | _ => trivial

/-! ### Named children -/

/-- A child of a planned task names the task and executes its contract. -/
def Work.Assigned (w : Work) : Prop :=
  w.parent ≠ none → ∀ task, w.planned = some task →
    w.mode = .fix ∧ w.context.taskId = some task ∧ w.Executes

/-- Every child that a run awaits is a child of a planned task. -/
def DB.Assigns (db : DB) (w : Work) : Prop :=
  ∀ id ∈ w.context.awaited, ∃ child, db.works.find id = some child ∧ child.parent ≠ none ∧ child.planned ≠ none

/-- All children of planned tasks are named, and runs await no others. -/
structure DB.Assigned (db : DB) : Prop where
  assigned : ∀ w ∈ db.works.rows, w.Assigned
  assigns : ∀ w ∈ db.works.rows, w.mode = .run → db.Assigns w

section

variable {cfg : Config} {db db' : DB} {call : Call} {w : Work}

theorem Call.rewritten_parent (call : Call) (w : Work) : (call.rewritten w).parent = w.parent := by
  cases call with
  | bindContract work c nextPhase context operation => cases nextPhase <;> rfl
  | _ => rfl

theorem DB.Assigns.later (h : db.Assigns w) (hs : db.Since db') : db'.Assigns w := by
  intro id hid
  obtain ⟨child, hchild, hparent, hplanned⟩ := h id hid
  obtain ⟨child', hchild', hlater, hsame⟩ := hs id child hchild
  refine ⟨child', hchild', ?_, ?_⟩
  · rw [hlater.parent]
    exact hparent
  · rw [hsame]
    exact hplanned

theorem DB.Assigns.of_none (h : w.context.awaited = []) : db.Assigns w := by
  intro id hid
  rw [h] at hid
  exact absurd hid List.not_mem_nil

/-- A row that is rewritten goes on with its task. -/
theorem Rewrites.assigned (h : Rewrites cfg batchPermits db w call) (hassigned : w.Assigned) :
    (call.rewritten w).Assigned := by
  intro hparent task htask
  have hparent : w.parent ≠ none := Call.rewritten_parent call w ▸ hparent
  -- A fix that executes its contract is in none of the phases that lead elsewhere.
  have hforeign : w.planned = some task → w.mode = .fix ∧ w.phase ∈ taskPhases := fun hplanned =>
    ⟨(hassigned hparent task hplanned).1, (hassigned hparent task hplanned).2.2.1⟩
  cases h with
  | steady _ hsteady =>
      rw [hsteady.planned] at htask
      obtain ⟨hfix, hnamed, hexecutes⟩ := hassigned hparent task htask
      refine ⟨(Call.rewritten_mode call w).trans hfix, ?_, hsteady.executes hfix hexecutes⟩
      rw [hsteady.tracks.taskId]
      exact hnamed
  | planned _ hphase _ hinputs =>
      obtain ⟨-, hmem⟩ := hforeign (hinputs.symm.trans htask)
      rw [hphase] at hmem
      exact absurd hmem (by decide)
  | single _ hwhy =>
      obtain ⟨-, hmem⟩ := hforeign htask
      rcases hwhy with ⟨hphase, -⟩ | ⟨halone, -⟩
      · rcases hphase with hphase | hphase <;> rw [hphase] at hmem <;> exact absurd hmem (by decide)
      · exact halone.elim
  | awaits hphase =>
      obtain ⟨-, hmem⟩ := hforeign htask
      rw [hphase] at hmem
      exact absurd hmem (by decide)
  | batch _ hrun =>
      obtain ⟨hfix, -⟩ := hforeign htask
      rw [hrun] at hfix
      cases hfix
  | joined =>
      obtain ⟨hfix, hnamed, hexecutes⟩ := hassigned hparent task htask
      refine ⟨hfix, hnamed, ?_, hexecutes.2⟩
      show (if w.mode = .collab ∨ w.mode = .fix ∧ w.phase = .classify then .acceptance else w.phase) ∈ taskPhases
      rw [if_neg]
      · exact hexecutes.1
      · rintro (hcollab | ⟨-, hphase⟩)
        · rw [hfix] at hcollab
          cases hcollab
        · have hmem := hexecutes.1
          rw [hphase] at hmem
          exact absurd hmem (by decide)
  | gathered => exact hassigned hparent task htask
  | promoted halone => exact halone.elim
  | archived _ hpermits =>
      rcases hpermits with hroot | hfree
      · exact absurd hroot hparent
      · have htask : w.planned = some task := htask
        rw [hfree] at htask
        cases htask

/-- A run whose row is rewritten awaits only children of planned tasks. -/
theorem Rewrites.assigns (h : Rewrites cfg batchPermits db w call) (hplaced : w.Placed) (hseen : db.Seen w)
    (hexec : call.exec db = .ok db') (hs : db.Since db') (hrun : w.mode = .run) (hassigns : db.Assigns w) :
    db'.Assigns (call.rewritten w) := by
  have hlater := hassigns.later hs
  have hforeign := hplaced.modes hrun
  cases h with
  | steady _ hsteady =>
      rcases hsteady.tracks.awaited with hsame | hnone
      · rw [DB.Assigns, hsame]
        exact hlater
      · exact .of_none hnone
  | planned => exact hlater
  | single _ hwhy =>
      rcases hwhy with ⟨hphase, -⟩ | ⟨halone, -⟩
      · refine absurd ?_ hforeign
        rcases hphase with h | h <;> rw [h] <;> decide
      · exact halone.elim
  | awaits hphase =>
      refine absurd ?_ hforeign
      rw [hphase]
      decide
  | batch =>
      have hitems := (DB.batch_found (hseen.2.imp fun _ hrow => hrow.1) hexec).2
      intro id hid
      obtain ⟨item, hitem, rfl⟩ := List.mem_map.mp hid
      obtain ⟨c, hplanned, hfind⟩ := hitems item hitem
      refine ⟨_, hfind, Option.some_ne_none _, ?_⟩
      show c.inputs.plannedTask ≠ none
      rw [hplanned]
      exact Option.some_ne_none _
  | joined | gathered | archived => exact .of_none rfl
  | promoted halone => exact halone.elim

/-- A call of such runs keeps all children named. -/
theorem EngineCall.named (h : EngineCall cfg batchPermits db call) (hholds : placedLaw.law.holds db)
    (hnamed : db.Assigned) (hexec : call.exec db = .ok db') : db'.Assigned := by
  have hs : db.Since db' := ((engineGuard cfg batchPermits).keeps hholds h hexec).2
  constructor
  · intro w' hw'
    rcases (h.rows hexec).mem hw' with ⟨w, hw, -, hmoved⟩ | ⟨⟨-, hnew⟩, -⟩
    · have hassigned := hnamed.assigned _ hw
      cases hmoved with
      | same => exact hassigned
      | charged => exact hassigned
      | rewritten record n _ _ _ hrewrites => exact hrewrites.assigned hassigned
    · intro hparent task htask
      rcases hnew.context with ⟨-, hroot | hfree | halone⟩ | ⟨named, hcontext, hplanned, hphase, hfix⟩
      · exact absurd hroot hparent
      · rw [hfree] at htask
        cases htask
      · exact halone.elim
      · obtain rfl := Option.some.inj (hplanned.symm.trans htask)
        rw [Work.Executes, hcontext, hphase]
        exact ⟨hfix, rfl, by decide, fun back hback => absurd hback List.not_mem_nil⟩
  · intro w' hw' hrun
    rcases (h.rows hexec).mem hw' with ⟨w, hw, -, hmoved⟩ | ⟨⟨-, hnew⟩, -⟩
    · cases hmoved with
      | same => exact (hnamed.assigns _ hw hrun).later hs
      | charged => exact (hnamed.assigns _ hw hrun).later hs
      | rewritten record n hrecord hadmits hplaced hrewrites =>
          have hledger : call.onLedger = false := by
            cases call <;> first | rfl | exact absurd hadmits id
          have hrun : record.mode = .run := (Call.rewritten_mode call record).symm.trans hrun
          have hassigns := hnamed.assigns _ hw hrun
          exact hrewrites.assigns hplaced (h.seen hledger record hrecord) hexec hs hrun hassigns
    · rcases hnew.context with ⟨hnone, -⟩ | ⟨task, hcontext, -⟩
      · exact .of_none (by rw [hnone]; rfl)
      · exact .of_none (by rw [hcontext]; rfl)

/-! ### Children that complete -/

/-- The planned task of a child that a run awaits is the one it finishes. -/
theorem DB.Assigned.finished (h : db.Assigned) (hw : w ∈ db.works.rows) (hrun : w.mode = .run) :
    ∀ id ∈ w.context.awaited, ∃ child task, db.works.find id = some child ∧ child.planned = some task ∧
      finishedTask child = .ok task := by
  intro id hid
  obtain ⟨child, hchild, hparent, hplanned⟩ := h.assigns w hw hrun id hid
  obtain ⟨task, htask⟩ := Option.ne_none_iff_exists'.mp hplanned
  obtain ⟨-, hnamed, -⟩ := h.assigned child (find_some hchild).1 hparent task htask
  refine ⟨child, task, hchild, htask, ?_⟩
  rw [finishedTask, hnamed]

/-- The tasks that awaited children finish, one for each of them. -/
theorem finished_all {ids : List String}
    (h : ∀ id ∈ ids, ∃ child task, db.works.find id = some child ∧ child.planned = some task ∧
      finishedTask child = .ok task) :
    ∃ tasks, ids.map db.taskOf = tasks.map some ∧ (ids.filterMap db.works.find).mapM finishedTask = .ok tasks := by
  induction ids with
  | nil => exact ⟨[], rfl, rfl⟩
  | cons id ids ih =>
      obtain ⟨tasks, htasks, hmap⟩ := ih fun id' hid => h id' (List.mem_cons_of_mem id hid)
      obtain ⟨child, task, hchild, hplanned, hfinished⟩ := h id List.mem_cons_self
      refine ⟨task :: tasks, ?_, ?_⟩
      · rw [List.map_cons, List.map_cons, htasks, DB.taskOf, hchild]
        exact congrArg (· :: _) hplanned
      · rw [List.filterMap_cons_some hchild, List.mapM_cons, hfinished, hmap]
        rfl

/-- A run whose child has completed adds exactly its task. -/
theorem childDone_adds {child : Work} {task : String} (hrun : w.mode = .run) (hdone : child.status = .completed)
    (hfinished : finishedTask child = .ok task) (candidate : Candidate) :
    ∃ changes context, childDone (.ok candidate) w child = one (.transition w .ready changes none []) ∧
      changes.context = some context ∧ context.doneTasks = w.context.doneTasks ++ [task] := by
  have hcall : childDone (.ok candidate) w child = one (.transition w .ready
      { phase := some
          (if w.mode = .collab ∨ w.mode = .fix ∧ w.phase = .classify then .acceptance else w.phase)
        context := some { w.context with
          child := none, waitingFor := none, candidate := some candidate
          childResults := w.context.childResults ++ [child.id]
          doneTasks := w.context.doneTasks ++ [task] } } none []) := by
    simp only [childDone, hdone, doneWith, if_pos hrun, hfinished]
    rfl
  exact ⟨_, _, hcall, rfl, rfl⟩

/-- A run all whose children have completed adds exactly their tasks. -/
theorem childrenDone_adds {children : List Work} {tasks : List String}
    (hdone : ∀ child ∈ children, child.status = .completed) (hfinished : children.mapM finishedTask = .ok tasks)
    (candidate : Candidate) :
    ∃ changes context, childrenDone (.ok candidate) w children = one (.transition w .ready changes none []) ∧
      changes.context = some context ∧ context.doneTasks = w.context.doneTasks ++ tasks := by
  have hall : children.all (·.status == .completed) = true :=
    List.all_eq_true.mpr fun child hmem => by simpa using hdone child hmem
  have hcall : childrenDone (.ok candidate) w children = one (.transition w .ready
      { context := some { w.context with
          children := [], waitingFor := none, candidate := some candidate
          doneTasks := w.context.doneTasks ++ tasks } } none []) := by
    simp only [childrenDone, if_pos hall, hfinished]
    rfl
  exact ⟨_, _, hcall, rfl, rfl⟩

end

/-! ### Runs of the engine -/

/-- All children of planned tasks stay named, where tasks start in batches. -/
theorem named_kept (cfg : Config) :
    Kept cfg batchPermits (fun s turn _ => InBatches cfg s turn) DB.Assigned where
  begins _ _ _ h := h.begins
  origin := ⟨fun _ hw => absurd hw List.not_mem_nil, fun _ hw => absurd hw List.not_mem_nil⟩
  keep _ _ _ _ _ _ _ _ _ hholds hnamed hcall hexec := hcall.named hholds hnamed hexec

section

variable {cfg : Config} {trace : List (Taken Engine (Turn Move))} {s : Engine}

/-- A root that is still at its first document starts no task. -/
theorem commandTurns_inBatches :
    System.Meets (fun s turn _ => InBatches {} s turn) (engineTaken (commandTurns .run {})) := by
  intro e he
  simp only [engineTaken, commandTurns, Pool.taken, List.mem_cons, List.not_mem_nil, or_false] at he
  rcases he with rfl | rfl | rfl | rfl | rfl | rfl | rfl | rfl | rfl
  case inr.inr.inr.inr.inr.inr.inr.inr =>
    rintro w hw - ⟨hphase, -⟩
    cases hw
    cases hphase
  all_goals trivial

end

/-! ### A task that starts by itself -/

/-- The only task starts by itself, and the process stops after the first transaction. -/
def stoppedTurns (candidate : Candidate) (tasks : List Task) : List (Turn Move) :=
  plannedTurns candidate tasks ++
    [.begin 0 (.run "root"), .go 0,
      .begin 0 (.step "root" { fixing candidate (.model .implement) {} with fresh := ["child"] }), .go 0, .drop 0]

/-- The running child carries out an operation, and takes the step that follows. -/
def childTurns (candidate : Candidate) (revision : Nat) (kind : Kind) (inputs : OperationInputs)
    (receipt : Receipt) (reply : Reply) : List (Turn Move) :=
  let model := match kind with
    | .model _ => true
    | _ => false
  let operation := OperationId.uuid5 "child" kind 0
  [.begin 0 (.run "child"), .go 0,
    .begin 0 (.ledger (.reserve { runningRoot .fix with id := "child", revision } kind 0 inputs model
      (if model then "codex" else ""))), .go 0,
    .begin 0 (.ledger (.settle operation receipt .confirmed)), .go 0,
    .begin 0 (.step "child" { fixing candidate kind reply with operation, effectOperation := operation }), .go 0]

/-- The child goes on, through its own classification, until it has completed. -/
def completedTurns (candidate : Candidate) (tasks : List Task) : List (Turn Move) :=
  stoppedTurns candidate tasks ++
    childTurns candidate 1 (.model .classify) (.model "prompt" [] "codex") (.reply "reply" none none)
      { decision := "fix" } ++
    childTurns candidate 3 (.model .implement) (.model "prompt" [] "codex") (.reply "reply" none none) {} ++
    childTurns candidate 5 .verify (.verify [] candidate.revision) (.report ⟨∅, ∅⟩) {} ++
    childTurns candidate 7 (.model .review) (.model "prompt" [] "codex") (.reply "reply" none none)
      { decision := "pass" } ++
    [.begin 0 (.run "child"), .go 0, .begin 0 (.step "child" (fixing candidate .artifactVerify {})), .go 0,
      .begin 0 (.run "child"), .go 0, .begin 0 (.step "child" (fixing candidate .deliver {})), .go 0]

end AutoAgents
