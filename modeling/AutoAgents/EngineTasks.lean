import AutoAgents.EnginePlans
import AutoAgents.EngineSent

/-! The tasks of a run: which of them are done, which are under way in children, and which are left. -/

namespace AutoAgents

open Base Base.Table Program
open Git (Path Commit)

/-! ### Rows under a call of the engine -/

section

variable {cfg : Config} {P : Permits} {db db' : DB} {call : Call}

/-- What a call of the engine does to a row: nothing, a charge, or what it does to its record. -/
inductive Moved (cfg : Config) (P : Permits) (db : DB) (call : Call) : Work → Work → Prop
  | same (w : Work) : Moved cfg P db call w w
  | charged (w : Work) (n : Nat) : Moved cfg P db call w { w with calls := n }
  | rewritten (record : Work) (n : Nat) : record ∈ call.records → call.Admits record → record.Placed →
      Rewrites cfg P db record call →
      Moved cfg P db call { record with calls := n } { call.rewritten record with calls := n }

/-- The rows after a call of the engine. -/
theorem EngineCall.rows (h : EngineCall cfg P db call) (hexec : call.exec db = .ok db') :
    DB.Rows (fun w => call.Adds db w ∧ w.New P) (Moved cfg P db call) db db' := by
  cases hledger : call.onLedger with
  | true =>
      refine (Call.ledger_rows hledger hexec).mono (fun w hnone => hnone.1.elim) ?_
      rintro w _ (rfl | ⟨n, rfl⟩)
      · exact .same _
      · exact .charged w n
  | false =>
      have hseen := h.seen hledger
      have hrows := Call.exec_rows (fun w hw => (hseen w hw).2.imp fun _ hrow => hrow.1) hexec
      refine Grown.mono_of_mem (fun w hw => ⟨⟨hw.1, h.adds hw.1⟩, hw.2⟩) (fun w hw w' hmoved => ?_) hrows
      rcases Call.writes_cases hmoved with rfl | ⟨n, rfl⟩ | ⟨record, hrecord, hid, hrev, hadmits, rfl⟩
      · exact .same _
      · exact .charged w n
      · have hfind : db.works.find record.id = some w := by
          rw [← hid]
          exact find_of_mem hw
        have hsame := (hseen record hrecord).current hfind hrev
        rw [hsame] at hadmits ⊢
        rw [Call.rewritten_calls]
        have hadmits := Call.admits_calls hadmits
        exact .rewritten record w.calls hrecord hadmits (hseen record hrecord).1 (h.rewrites hrecord hadmits)

end

/-! ### Children that are awaited -/

/-- The planned task of a work item, by its identity. -/
def DB.taskOf (db : DB) (id : String) : Option String := (db.works.find id).bind Work.planned

/-- The tasks that a work item awaits. -/
def DB.underway (db : DB) (w : Work) : List String := w.context.awaited.filterMap db.taskOf

/-- The children that a work item awaits are there. -/
def DB.Awaits (db : DB) (w : Work) : Prop := ∀ id ∈ w.context.awaited, ∃ row, db.works.find id = some row

section

variable {cfg : Config} {P : Permits} {db db' : DB} {call : Call} {w : Work}

theorem DB.Since.taskOf (hs : db.Since db') {id : String} (h : ∃ row, db.works.find id = some row) :
    db'.taskOf id = db.taskOf id := by
  obtain ⟨row, hrow⟩ := h
  obtain ⟨row', hrow', -, hplanned⟩ := hs id row hrow
  rw [DB.taskOf, DB.taskOf, hrow, hrow']
  exact hplanned

theorem DB.Awaits.later (h : db.Awaits w) (hs : db.Since db') : db'.Awaits w := by
  intro id hid
  obtain ⟨row, hrow⟩ := h id hid
  obtain ⟨row', hrow', -⟩ := hs id row hrow
  exact ⟨row', hrow'⟩

theorem DB.Awaits.underway (h : db.Awaits w) (hs : db.Since db') : db'.underway w = db.underway w :=
  List.filterMap_congr fun id hid => hs.taskOf (h id hid)

/-- A finished child has finished the planned task it was created for. -/
theorem DB.Seen.finished {child : Work} {task : String} (h : db.Seen child) (hdone : finishedTask child = .ok task) :
    db.taskOf child.id = some task := by
  obtain ⟨hplaced, row, hrow, -, hplanned⟩ := h
  have hnamed : child.context.taskId = some task := by
    unfold finishedTask at hdone
    split at hdone
    · next task' htask =>
        cases hdone
        exact htask
    · cases hdone
  rw [DB.taskOf, hrow]
  exact hplanned.trans (hplaced.named task hnamed)

/-- What the completion of a child adds to the tasks that a run has done. -/
theorem doneWith_run {child : Work} {done : List String} (hrun : w.mode = .run)
    (h : doneWith w child = .ok done) :
    ∃ task, finishedTask child = .ok task ∧ done = w.context.doneTasks ++ [task] := by
  unfold doneWith at h
  rw [if_pos hrun] at h
  cases htask : finishedTask child with
  | error e =>
      rw [htask] at h
      cases h
  | ok task =>
      rw [htask] at h
      cases h
      exact ⟨task, rfl, rfl⟩

/-- The tasks of finished children, in their order. -/
theorem finished_tasks {children : List Work} {tasks : List String} (hseen : ∀ child ∈ children, db.Seen child)
    (h : children.mapM finishedTask = .ok tasks) : tasks = (children.map (·.id)).filterMap db.taskOf := by
  induction children generalizing tasks with
  | nil =>
      simp only [List.mapM_nil, pure_ok] at h
      subst h
      rfl
  | cons child children ih =>
      simp only [List.mapM_cons, bind_ok, pure_ok] at h
      obtain ⟨task, htask, rest, hrest, rfl⟩ := h
      have hfirst := (hseen child List.mem_cons_self).finished htask
      rw [List.map_cons, List.filterMap_cons_some hfirst,
        ← ih (fun child hmem => hseen child (List.mem_cons_of_mem _ hmem)) hrest]

end

/-! ### Runs on their plan -/

/-- What holds of every run: it has an accepted plan, of which nothing is done or under way before it is
made, and no task is done twice, or done and under way. -/
structure DB.OnPlan (db : DB) (w : Work) : Prop where
  plan : PlanAccepted w.context.tasks
  early : w.Early → w.context.doneTasks = [] ∧ w.context.awaited = []
  awaits : db.Awaits w
  once : (w.context.doneTasks ++ db.underway w).Nodup

/-- All runs are on their plan. -/
def DB.Planned (db : DB) : Prop := ∀ w ∈ db.works.rows, w.mode = .run → db.OnPlan w

theorem planAccepted_nil : PlanAccepted [] := by
  refine ⟨⟨fun _ => [], fun _ => true, fun command => command⟩, [], List.nodup_nil, rfl, ?_⟩
  rfl

section

variable {cfg : Config} {P : Permits} {db db' : DB} {call : Call} {w : Work}

theorem DB.OnPlan.later (h : db.OnPlan w) (hs : db.Since db') : db'.OnPlan w :=
  ⟨h.plan, h.early, h.awaits.later hs, by rw [h.awaits.underway hs]; exact h.once⟩

/-- A run with nothing planned, done or awaited. -/
theorem DB.OnPlan.of_none (htasks : w.context.tasks = []) (hdone : w.context.doneTasks = [])
    (hawaited : w.context.awaited = []) : db.OnPlan w := by
  refine ⟨?_, fun _ => ⟨hdone, hawaited⟩, ?_, ?_⟩
  · rw [htasks]
    exact planAccepted_nil
  · intro id hid
    rw [hawaited] at hid
    exact absurd hid List.not_mem_nil
  · rw [hdone, DB.underway, hawaited]
    exact List.nodup_nil

/-- A run that awaits nothing, with as much done as was done or under way. -/
theorem DB.OnPlan.of_done {w' : Work} (h : db.OnPlan w) (htasks : w'.context.tasks = w.context.tasks)
    (hawaited : w'.context.awaited = []) (hearly : w'.Early → w'.context.doneTasks = [])
    (hdone : w'.context.doneTasks.Sublist (w.context.doneTasks ++ db.underway w)) : db.OnPlan w' := by
  refine ⟨?_, fun he => ⟨hearly he, hawaited⟩, ?_, ?_⟩
  · rw [htasks]
    exact h.plan
  · intro id hid
    rw [hawaited] at hid
    exact absurd hid List.not_mem_nil
  · rw [DB.underway, hawaited, List.filterMap_nil, List.append_nil]
    exact hdone.nodup h.once

/-- A run that awaits new children for tasks that it may start. -/
theorem DB.OnPlan.of_started {w' : Work} (started : List Task) (h : db.OnPlan w)
    (htasks : w'.context.tasks = w.context.tasks) (hdone : w'.context.doneTasks = w.context.doneTasks)
    (hearly : ¬ w'.Early) (hawaits : db'.Awaits w')
    (hunderway : db'.underway w' = started.map (·.taskId)) (hstarted : started.Sublist (readyTasks w.context)) :
    db'.OnPlan w' := by
  have hopen : started.Sublist (pendingTasks w.context) := hstarted.trans List.filter_sublist
  refine ⟨?_, fun he => absurd he hearly, hawaits, ?_⟩
  · rw [htasks]
    exact h.plan
  · rw [hdone, hunderway]
    refine List.nodup_append.mpr ⟨(List.nodup_append.mp h.once).1, ?_, ?_⟩
    · exact ((hopen.trans List.filter_sublist).map _).nodup h.plan.nodup
    · rintro done hmem _ hnew rfl
      obtain ⟨task, htask, rfl⟩ := List.mem_map.mp hnew
      have hleft := (List.mem_filter.mp (hopen.subset htask)).2
      simp [hmem] at hleft

/-! ### Tasks that start -/

theorem chooseBatch_sublist (available : Nat) (tasks batch : List Task) (paths : List Path) :
    ∃ rest, chooseBatch available tasks batch paths = batch ++ rest ∧ rest.Sublist tasks := by
  induction tasks generalizing batch paths with
  | nil => exact ⟨[], (List.append_nil batch).symm, List.Sublist.refl []⟩
  | cons task tasks ih =>
      unfold chooseBatch
      split
      · obtain ⟨rest, hrest, hsub⟩ := ih batch paths
        exact ⟨rest, hrest, hsub.cons task⟩
      · split
        · exact ⟨[task], rfl, (List.nil_sublist tasks).cons_cons task⟩
        · obtain ⟨rest, hrest, hsub⟩ := ih (batch ++ [task]) (paths ++ task.paths)
          refine ⟨task :: rest, ?_, hsub.cons_cons task⟩
          rw [hrest, List.append_assoc, List.singleton_append]

theorem Work.batch_sublist (cfg : Config) (o : Observed) (w : Work) :
    (w.batch cfg o).Sublist (readyTasks w.context) := by
  unfold Work.batch readyBatch
  split
  · obtain ⟨rest, hrest, hsub⟩ := chooseBatch_sublist _ (readyTasks w.context) [] []
    rw [hrest]
    exact hsub
  · exact List.nil_sublist _

theorem zip_sublist {α β : Type} (l : List α) (l' : List β) : ((l.zip l').map Prod.snd).Sublist l' := by
  induction l generalizing l' with
  | nil => exact List.nil_sublist l'
  | cons a l ih =>
      cases l' with
      | nil => exact List.Sublist.refl []
      | cons b l' => exact (ih l').cons_cons b

/-- A child that is started by itself is awaited for its task. -/
theorem child_underway {id goal : String} {mode : Mode} {source : Commit} {inputs : Inputs} {scope : List Path}
    {checks : List VerificationSpec} {limit : Nat} {operation : Option OperationId} {task : String}
    (hw : ∃ row, db.works.find w.id = some row) (htask : inputs.plannedTask = some task)
    (hexec : Call.exec db (.child w id mode goal source inputs scope checks limit operation) = .ok db') :
    (∃ row, db'.works.find id = some row) ∧ db'.taskOf id = some task := by
  obtain ⟨pc, c, -, hbuild, -, -, -, hfind⟩ := DB.child_found hw hexec
  obtain ⟨-, -, -, -, -, -, -, -, hinputs, -⟩ := Contract.build_eq_ok hbuild
  refine ⟨⟨_, hfind⟩, ?_⟩
  rw [DB.taskOf, hfind]
  show c.inputs.plannedTask = some task
  rw [hinputs, htask]

/-- The children of a batch are awaited for their tasks. -/
theorem batch_underway {tasks : List (String × Task)} {source : Commit}
    (hw : ∃ row, db.works.find w.id = some row) (hexec : Call.exec db (.batch w tasks source) = .ok db') :
    (∀ id ∈ tasks.map Prod.fst, ∃ row, db'.works.find id = some row) ∧
      (tasks.map Prod.fst).filterMap db'.taskOf = tasks.map fun item => item.2.taskId := by
  have hitems := (DB.batch_found hw hexec).2
  refine ⟨fun id hid => ?_, ?_⟩
  · obtain ⟨item, hitem, rfl⟩ := List.mem_map.mp hid
    obtain ⟨c, -, hfind⟩ := hitems item hitem
    exact ⟨_, hfind⟩
  · rw [List.filterMap_map, ← List.filterMap_eq_map]
    refine List.filterMap_congr fun item hitem => ?_
    obtain ⟨c, hplanned, hfind⟩ := hitems item hitem
    show db'.taskOf item.1 = some item.2.taskId
    rw [DB.taskOf, hfind]
    exact hplanned

theorem Call.rewritten_mode (call : Call) (w : Work) : (call.rewritten w).mode = w.mode := by
  cases call with
  | bindContract work c nextPhase context operation => cases nextPhase <;> rfl
  | _ => rfl

/-- A run whose row is rewritten stays on its plan. -/
theorem Rewrites.onPlan (h : Rewrites cfg P db w call) (hplaced : w.Placed) (hseen : db.Seen w)
    (hexec : call.exec db = .ok db') (hs : db.Since db') (hrun : w.mode = .run) (hplan : db.OnPlan w) :
    db'.OnPlan (call.rewritten w) := by
  have hrow : ∃ row, db.works.find w.id = some row := hseen.2.imp fun _ hrow => hrow.1
  have hlater := hplan.later hs
  have hforeign : w.phase ∉ [.classify, .diagnose] := hplaced.modes hrun
  cases h with
  | steady _ hsteady =>
      obtain ⟨htasks, hdone, -, hawaited⟩ := hsteady.tracks
      rcases hawaited with hsame | hnone
      · refine ⟨htasks ▸ hlater.plan, fun he => ?_, ?_, ?_⟩
        · rw [hdone, hsame]
          exact hlater.early (hsteady.early he)
        · rw [DB.Awaits, hsame]
          exact hlater.awaits
        · rw [hdone, DB.underway, hsame]
          exact hlater.once
      · refine hlater.of_done htasks hnone (fun he => ?_) ?_
        · rw [hdone]
          exact (hlater.early (hsteady.early he)).1
        · rw [hdone]
          exact List.sublist_append_left _ _
  | planned _ hphase htasks =>
      have hearly : w.Early := Or.inl (by rw [hphase]; decide)
      have hnone := (hlater.early hearly).2
      refine ⟨htasks, fun _ => ⟨rfl, hnone⟩, hlater.awaits, ?_⟩
      exact (List.sublist_append_right _ _).nodup hlater.once
  | @single id mode goal source scope checks limit operation inputs _ hwhy =>
      rcases hwhy with ⟨hphase, -⟩ | ⟨-, -, hphase, task, hready, htask⟩
      · refine absurd ?_ hforeign
        rcases hphase with h | h <;> rw [h] <;> decide
      · obtain ⟨hfound, htaskOf⟩ := child_underway hrow htask hexec
        refine DB.OnPlan.of_started [task] hlater rfl rfl ?_ ?_ ?_ (List.singleton_sublist.mpr hready)
        · rintro (hmem | ⟨hwaiting, -⟩)
          · have hmem : w.phase ∈ planPhases := hmem
            rw [hphase] at hmem
            exact absurd hmem (by decide)
          · cases hwaiting
        · intro id' hid
          obtain rfl := List.mem_singleton.mp hid
          exact hfound
        · show [id].filterMap db'.taskOf = [task.taskId]
          rw [List.filterMap_cons_some htaskOf]
          rfl
  | awaits hphase =>
      refine absurd ?_ hforeign
      rw [hphase]
      decide
  | @batch o _ _ hphase =>
      obtain ⟨hfound, hunderway⟩ := batch_underway hrow hexec
      refine DB.OnPlan.of_started ((o.fresh.zip (w.batch cfg o)).map Prod.snd) hlater rfl rfl ?_ hfound ?_ ?_
      · rintro (hmem | ⟨hwaiting, -⟩)
        · have hmem : w.phase ∈ planPhases := hmem
          rw [hphase] at hmem
          exact absurd hmem (by decide)
        · cases hwaiting
      · rw [List.map_map]
        exact hunderway
      · exact (zip_sublist _ _).trans (w.batch_sublist cfg o)
  | @joined child candidate done _ hwaiting hchild hseen _ hdone =>
      obtain ⟨task, htask, rfl⟩ := doneWith_run hrun hdone
      have hawaited : w.context.awaited = [child.id] := by
        rw [Context.awaited, hwaiting, hchild]
        rfl
      have hunderway : db.underway w = [task] := by
        rw [DB.underway, hawaited, List.filterMap_cons_some (hseen.finished htask)]
        rfl
      refine hplan.later hs |>.of_done rfl rfl (fun he => ?_) ?_
      · rcases he with hmem | ⟨hnone, -⟩
        · have hmem : (if w.mode = .collab ∨ w.mode = .fix ∧ w.phase = .classify then Phase.acceptance
              else w.phase) ∈ planPhases := hmem
          rw [joined_phase hrun] at hmem
          have hcontra := (hplan.early (Or.inl hmem)).2
          rw [hawaited] at hcontra
          cases hcontra
        · cases hnone
      · show (w.context.doneTasks ++ [task]).Sublist _
        rw [hplan.awaits.underway hs, hunderway]
  | @gathered children tasks candidate _ hwaiting hdone hsub htasks =>
      have hawaited : w.context.awaited = w.context.children := by
        rw [Context.awaited, hwaiting]
      have hfinished := finished_tasks (fun child hmem => (hdone child hmem).1) htasks
      have hsublist : tasks.Sublist (db.underway w) := by
        rw [DB.underway, hawaited, hfinished]
        exact hsub.filterMap _
      refine hlater.of_done rfl rfl (fun he => ?_) ?_
      · have hmem : w.phase ∈ planPhases := by
          rcases he with hmem | ⟨hnone, -⟩
          · exact hmem
          · cases hnone
        obtain ⟨hnone, hfree⟩ := hplan.early (Or.inl hmem)
        rw [DB.underway, hfree] at hsublist
        show w.context.doneTasks ++ tasks = []
        rw [hnone, List.sublist_nil.mp hsublist]
        rfl
      · show (w.context.doneTasks ++ tasks).Sublist _
        rw [hplan.awaits.underway hs]
        exact hsublist.append_left _
  | promoted _ hfix =>
      rw [hfix] at hrun
      cases hrun
  | archived => exact .of_none rfl rfl rfl

/-- A call of the engine keeps all runs on their plan. -/
theorem EngineCall.planned (h : EngineCall cfg P db call) (hholds : placedLaw.law.holds db) (hplanned : db.Planned)
    (hexec : call.exec db = .ok db') : db'.Planned := by
  have hs : db.Since db' := ((engineGuard cfg P).keeps hholds h hexec).2
  intro w' hw' hrun
  rcases (h.rows hexec).mem hw' with ⟨w, hw, -, hmoved⟩ | ⟨⟨-, hnew⟩, -⟩
  · cases hmoved with
    | same => exact (hplanned _ hw hrun).later hs
    | charged =>
        have hplan := (hplanned _ hw hrun).later hs
        exact ⟨hplan.plan, hplan.early, hplan.awaits, hplan.once⟩
    | rewritten record n hrecord hadmits hplaced hrewrites =>
        have hledger : call.onLedger = false := by
          cases call <;> first | rfl | exact absurd hadmits id
        have hrun : record.mode = .run := (Call.rewritten_mode call record).symm.trans hrun
        have hold := hplanned _ hw hrun
        have hplan := hrewrites.onPlan hplaced (h.seen hledger record hrecord) hexec hs hrun
          ⟨hold.plan, hold.early, hold.awaits, hold.once⟩
        exact ⟨hplan.plan, hplan.early, hplan.awaits, hplan.once⟩
  · rcases hnew.context with ⟨hnone, -⟩ | ⟨task, hcontext, -⟩
    · exact .of_none (congrArg _ hnone) (congrArg _ hnone) (congrArg _ hnone)
    · exact .of_none (congrArg _ hcontext) (congrArg _ hcontext) (congrArg _ hcontext)

end

/-! ### A run with a plan -/

/-- A document of the running root is written, and accepted as it stands. -/
def documentTurns (candidate : Candidate) (revision : Nat) (phase : Phase) (reply : Reply) : List (Turn Move) :=
  [.begin 0 (.run "root"), .go 0,
    .begin 0 (.ledger (.reserve { runningRoot .run with revision } (.model phase) 0
      (.model "prompt" [] "codex") true "codex")), .go 0,
    .begin 0 (.ledger (.settle (.uuid5 "root" (.model phase) 0) (.reply "reply" none none) .confirmed)), .go 0,
    .begin 0 (.step "root" (fixing candidate (.model phase) reply)), .go 0]

/-- A run with `--verify-command` up to its tasks. -/
def plannedTurns (candidate : Candidate) (tasks : List Task) : List (Turn Move) :=
  [.begin 0 (.start "flow" "root" .run "goal" candidate.source {} {} "pytest tests/a.py" none 30), .go 0] ++
    documentTurns candidate 1 .clarify {} ++
    [.begin 0 (.run "root"), .go 0, .begin 0 (.step "root" (fixing candidate (.model .prototype) {})), .go 0] ++
    documentTurns candidate 5 .design {} ++
    documentTurns candidate 7 .plan { tasks, checks := [{ command := "pytest tests/a.py" }] } ++
    documentTurns candidate 9 .providerResearch {}

/-- A task over one directory. -/
def docsTask : Task where
  taskId := "t"
  goal := "Write a note"
  paths := [["docs"]]
  checks := [{ command := "pytest tests/a.py" }]

/-- The candidate of a worker that has written in the directory. -/
def docsCandidate : Candidate :=
  ⟨.initial ∅ "base", .initial ∅ "base", [["docs"]], List.pairwise_singleton _ _⟩

end AutoAgents
