import AutoAgents.EngineRuns

/-! What each phase of a step can end in: the transactions it begins, with what it has checked before. -/

namespace AutoAgents

open Base Program
open Git (Path)

variable {cfg : Config} {o : Observed} {db : DB} {w : Work} {c : Contract} {p : Program Unit}

/-- A transition that moves a work item on, or lets it wait. -/
def Moves (w : Work) (status : Status) (phase : Option Phase) (context : Context) (p : Program Unit) : Prop :=
  ∃ failure operation, p = one (.transition w status { phase, context := some context, failure } operation [])

theorem advance_moves (w : Work) (phase : Phase) (context : Context) (operation : Option OperationId) :
    Moves w .ready (some phase) context (advance w phase context operation) := ⟨_, _, rfl⟩

/-- The children a work item waits for. -/
def Context.awaited (c : Context) : List String :=
  match c.waitingFor with
  | some .child => c.child.toList
  | some .children => c.children
  | _ => []

/-- The approvals of a context stay, but for one gate that is approved again. -/
def Context.Approves (c c' : Context) : Prop :=
  c'.approvals = c.approvals ∨
    ∃ gate hashes, c'.approvals = (gate, hashes) :: c.approvals.filter fun entry => entry.1 != gate

/-- A change of a context that leaves the plan and what is done of it alone, and awaits no other children. -/
structure Context.Tracks (c c' : Context) : Prop where
  tasks : c'.tasks = c.tasks
  doneTasks : c'.doneTasks = c.doneTasks
  taskId : c'.taskId = c.taskId
  awaited : c'.awaited = c.awaited ∨ c'.awaited = []

theorem Context.Tracks.refl (c : Context) : c.Tracks c := ⟨rfl, rfl, rfl, Or.inl rfl⟩

/-- The phases a context can send its work item back to. -/
def Context.returns (context : Context) : List Phase :=
  context.approvalPhase.toList ++ context.finalizeReturn.toList

theorem Context.mem_returns {context : Context} {phase : Phase} :
    phase ∈ context.returns ↔ context.approvalPhase = some phase ∨ context.finalizeReturn = some phase := by
  rw [returns, List.mem_append, Option.mem_toList, Option.mem_toList]

theorem Context.returns_congr {a b : Context} (happroval : a.approvalPhase = b.approvalPhase)
    (hreturn : a.finalizeReturn = b.finalizeReturn) : a.returns = b.returns := by
  rw [returns, returns, happroval, hreturn]

/-- The phases before the tasks of a run are planned. -/
def planPhases : List Phase := [.clarify, .prototype, .design, .plan]

/-! ### Checks and tasks -/

/-- A declared check that proves behavior. -/
def RawCheck.proves (value : RawCheck) : Bool := value.purpose == "behavior" && value.required

/-- A task with paths of its own and a check that proves it. -/
def Task.Bounded (task : Task) : Prop := task.paths ≠ [] ∧ task.checks.any (·.proves) = true

theorem readSpec_proves {value : RawCheck} {spec : VerificationSpec} (h : DB.readSpec value = .ok spec)
    (hproves : value.proves = true) : spec.proves = true := by
  simp only [RawCheck.proves, Bool.and_eq_true, beq_iff_eq] at hproves
  unfold DB.readSpec at h
  rw [hproves.1] at h
  split at h
  · split at h
    · cases h
    · next purpose hpurpose =>
        split at h
        · cases h
          cases hpurpose
          simp only [VerificationSpec.proves, hproves.2]
          rfl
        · cases h
  · cases h

theorem toDict_proves (spec : VerificationSpec) : spec.toDict.proves = spec.proves := by
  cases spec with
  | mk command targets purpose required timeout outputs _ _ => cases purpose <;> cases required <;> rfl

theorem compileCheck_proves {commands : Commands} {value : RawCheck} {spec : VerificationSpec}
    (h : compileCheck commands value = .ok spec) (hproves : value.proves = true) : spec.proves = true := by
  simp only [compileCheck, guard_ok] at h
  exact readSpec_proves h.2.2.2.2.2.2 hproves

/-- A check of the list that proves keeps proving where every check is read. -/
theorem mapM_proves {f : RawCheck → Except ControlError VerificationSpec}
    (hf : ∀ value spec, f value = .ok spec → value.proves = true → spec.proves = true)
    {values : List RawCheck} {specs : List VerificationSpec} (h : values.mapM f = .ok specs)
    (hproves : values.any (·.proves) = true) : specs.any (·.proves) = true := by
  induction values generalizing specs with
  | nil => cases hproves
  | cons value values ih =>
      simp only [List.mapM_cons, bind_ok, pure_ok] at h
      obtain ⟨spec, hspec, rest, hrest, rfl⟩ := h
      rw [List.any_cons, Bool.or_eq_true] at hproves ⊢
      rcases hproves with hhead | htail
      · exact Or.inl (hf value spec hspec hhead)
      · exact Or.inr (ih hrest htail)

theorem compileChecks_proves {commands : Commands} {values : List RawCheck}
    {specs : List VerificationSpec} (h : compileChecks commands values = .ok specs)
    (hproves : values.any (·.proves) = true) : specs.any (·.proves) = true :=
  mapM_proves (fun _ _ => compileCheck_proves) h hproves

theorem planTask_proves {commands : Commands} {ids : List String} {task planned : Task}
    (h : planTask commands ids task = .ok planned) :
    planned.paths = task.paths ∧ planned.checks.any (·.proves) = true := by
  simp only [planTask, guard_ok, bind_ok, pure_ok] at h
  obtain ⟨-, checks, -, -, hproves, rfl⟩ := h
  refine ⟨rfl, ?_⟩
  rw [Bool.not_eq_false] at hproves
  simp only [List.any_map, Function.comp_def, toDict_proves, hproves]

theorem validatePlan_paths {tasks : List Task} (h : validatePlan tasks = .ok ()) :
    ∀ task ∈ tasks, task.paths ≠ [] := by
  simp only [validatePlan, bind_ok, guard_ok] at h
  obtain ⟨-, -, -, hpaths, -⟩ := h
  intro task htask hnone
  refine hpaths (List.any_eq_true.mpr ⟨task, htask, ?_⟩)
  simp only [hnone, List.isEmpty_nil, Bool.true_or]

/-! ### Documents and the plan -/

/-- A list of tasks that `stepPlan` accepts: from a reply without repeated identities, each task with known
dependencies and checks that prove it, and validated. -/
def PlanAccepted (tasks : List Task) : Prop :=
  ∃ (commands : Commands) (replied : List Task), (replied.map (·.taskId)).Nodup ∧
    replied.mapM (planTask commands (replied.map (·.taskId))) = .ok tasks ∧ validatePlan tasks = .ok ()

theorem PlanAccepted.bounded {tasks : List Task} (h : PlanAccepted tasks) : ∀ task ∈ tasks, task.Bounded := by
  obtain ⟨commands, replied, -, htasks, hvalid⟩ := h
  intro task htask
  obtain ⟨raw, -, hraw⟩ := mapM_mem htasks task htask
  exact ⟨validatePlan_paths hvalid task htask, (planTask_proves hraw).2⟩

/-- A plan is bound with its checks and its tasks. -/
theorem stepPlan_ok {proposal : Reply} (h : stepPlan o w c proposal = .ok p) :
    ∃ checks tasks candidate, checks.any (·.proves) = true ∧ PlanAccepted tasks ∧
      p = one (.bindContract w { c with checks } (some .providerResearch)
        (some { w.context with tasks, doneTasks := [], candidate := some candidate }) o.operation) := by
  simp only [stepPlan, bind_ok, guard_ok, pure_ok] at h
  obtain ⟨declared, -, -, hnodup, tasks, htasks, hproves, ⟨⟩, hvalid, ⟨⟩, -, candidate, -, rfl⟩ := h
  exact ⟨_, tasks, candidate, by simpa using hproves, ⟨_, _, not_not.mp hnodup, htasks, hvalid⟩, rfl⟩

theorem followingPhase_ok {phase next : Phase} (h : followingPhase phase = .ok next) :
    next ∈ [.prototype, .design, .plan, .providerResearch, .implement, .visualJudge, .verify, .readme] ∧
      (next ∈ planPhases → phase ∈ planPhases) := by
  refine ⟨?_, fun hnext => ?_⟩
  · unfold followingPhase at h
    split at h
    · cases h
      decide
    · split at h
      · next rest hdrop =>
          cases h
          have hmem : next ∈ runPhases.drop (runPhases.idxOf phase + 1) := by
            rw [hdrop]
            exact List.mem_cons_self
          rw [Nat.add_comm, ← List.drop_drop] at hmem
          have htail : next ∈ runPhases.drop 1 := List.mem_of_mem_drop hmem
          exact htail
      · cases h
  · cases phase <;> first | decide | (cases h; done) | (cases h; revert hnext; decide)

/-- How a document phase ends. -/
inductive DocumentEnd (w : Work) (c : Contract) : Program Unit → Prop
  | moved {status phase context p} : Moves w status phase context p → w.context.Tracks context →
      w.context.Approves context →
      context.verification = w.context.verification → status = .ready ∨ status = .waiting →
      (context.approvalPhase = w.context.approvalPhase ∧
          (context.waitingFor = w.context.waitingFor ∨ context.waitingFor = some .user) ∨
        context.approvalPhase = some w.phase ∧ w.phase ∈ [.clarify, .prototype, .design]) →
      context.finalizeReturn = w.context.finalizeReturn →
      (∀ next ∈ phase, w.mode = .providerResolve ∧ next = .review ∨ (next ∈
        [.prototype, .design, .plan, .providerResearch, .implement, .visualJudge, .verify, .readme] ∧
          (next ∈ planPhases → w.phase ∈ planPhases))) →
      DocumentEnd w c p
  | planned {checks tasks candidate operation} : w.phase = .plan → checks.any (·.proves) = true →
      PlanAccepted tasks →
      DocumentEnd w c (one (.bindContract w { c with checks } (some .providerResearch)
        (some { w.context with tasks, doneTasks := [], candidate := some candidate }) operation))
  | variant {result operation} : c.inputs.variantOnly.isSome = true → result.delivery = none →
      DocumentEnd w c (complete w result operation none)

theorem phaseGate_some {phase : Phase} {gate : Gate} (h : phaseGate phase = some gate) :
    phase ∈ [.clarify, .prototype, .design] := by
  cases phase <;> first | decide | cases h

theorem stepArtifacts_ok {proposal : Reply} (h : stepArtifacts cfg o w c proposal = .ok p) :
    DocumentEnd w c p := by
  simp only [stepArtifacts, bind_ok] at h
  obtain ⟨reply, -, candidate, -, h⟩ := h
  split at h
  · next hvariant =>
      obtain rfl := pure_ok.mp h
      exact .variant hvariant rfl
  · split at h
    · next hmode =>
        obtain rfl := pure_ok.mp h
        refine .moved (advance_moves ..) ⟨rfl, rfl, rfl, Or.inl rfl⟩ (Or.inl rfl) rfl (Or.inl rfl)
          (Or.inl ⟨rfl, Or.inl rfl⟩) rfl fun next hnext => ?_
        cases hnext
        split
        · exact Or.inl ⟨hmode, rfl⟩
        · exact Or.inr ⟨by decide, fun hplan => absurd hplan (by decide)⟩
    · obtain ⟨next, hnext, h⟩ := bind_ok.mp h
      have hphase : ∀ phase ∈ some next, w.mode = .providerResolve ∧ phase = .review ∨ (phase ∈
          [.prototype, .design, .plan, .providerResearch, .implement, .visualJudge, .verify, .readme] ∧
            (phase ∈ planPhases → w.phase ∈ planPhases)) := by
        rintro phase ⟨⟩
        exact Or.inr (followingPhase_ok hnext)
      split at h
      · obtain rfl := pure_ok.mp h
        exact .moved (advance_moves ..) ⟨rfl, rfl, rfl, Or.inl rfl⟩ (Or.inl rfl) rfl (Or.inl rfl)
          (Or.inl ⟨rfl, Or.inl rfl⟩) rfl hphase
      · next gate hgate =>
          split at h
          · obtain rfl := pure_ok.mp h
            exact .moved ⟨_, _, rfl⟩ ⟨rfl, rfl, rfl, Or.inr rfl⟩ (Or.inl rfl) rfl (Or.inr rfl)
              (Or.inr ⟨rfl, phaseGate_some hgate⟩) rfl hphase
          · obtain ⟨hashes, -, h⟩ := bind_ok.mp h
            obtain rfl := pure_ok.mp h
            exact .moved (advance_moves ..) ⟨rfl, rfl, rfl, Or.inl rfl⟩ (Or.inr ⟨gate, hashes, rfl⟩) rfl
              (Or.inl rfl) (Or.inl ⟨rfl, Or.inl rfl⟩) rfl hphase

theorem stepReply_ok (h : stepReply cfg o w c = .ok p) : DocumentEnd w c p := by
  obtain ⟨proposal, -, h⟩ := bind_ok.mp h
  split at h
  · obtain rfl := pure_ok.mp h
    have hmoves : Moves w .waiting none { w.context with waitingFor := some .user }
        (waitUser w o.operation) := ⟨_, _, rfl⟩
    exact .moved hmoves ⟨rfl, rfl, rfl, Or.inr rfl⟩ (Or.inl rfl) rfl (Or.inr rfl) (Or.inl ⟨rfl, Or.inr rfl⟩) rfl
      fun _ hnone => nomatch hnone
  · split at h
    · next hplan =>
        obtain ⟨checks, tasks, candidate, hproves, htasks, rfl⟩ := stepPlan_ok h
        exact .planned hplan hproves htasks
    · exact stepArtifacts_ok h

theorem stepDocument_ok (h : stepDocument cfg o w c = .ok p) : DocumentEnd w c p := by
  unfold stepDocument at h
  split at h
  · next hskip =>
      cases h
      refine .moved (advance_moves ..) (.refl _) (Or.inl rfl) rfl (Or.inl rfl) (Or.inl ⟨rfl, Or.inl rfl⟩) rfl ?_
      rintro next ⟨⟩
      refine Or.inr ⟨by decide, fun _ => ?_⟩
      rw [hskip.1]
      decide
  · split at h
    · obtain ⟨-, -, h⟩ := bind_ok.mp h
      exact stepReply_ok h
    · exact stepReply_ok h

/-! ### Classification and implementation -/

/-- How a classification ends. A fix goes on to `implement` with the scope and the checks of its
contract, or binds those that were missing. -/
inductive ClassifyEnd (o : Observed) (w : Work) (c : Contract) : Program Unit → Prop
  | asks : ClassifyEnd o w c (waitUser w o.operation)
  | notBug (proposal : Reply) : ClassifyEnd o w c
      (advance w (if c.checks = [] then .review else .verify)
        { w.context with disposition := some "not_bug", classification := some proposal } o.operation)
  | iteration {goal} : ClassifyEnd o w c
      (one (.child w (o.fresh.headD "") .run goal o.head {} [] [] 15 o.operation))
  | binds {bound context} : bound.checks = c.checks ∧ bound.scope ≠ [] ∧ c.checks ≠ [] ∨
        bound.checks.any (·.proves) = true ∧ (c.scope = [] → bound.scope ≠ []) →
      w.context.Tracks context → context.approvals = w.context.approvals → bound.inputs = c.inputs →
      context.waitingFor = w.context.waitingFor → context.approvalPhase = w.context.approvalPhase →
      context.implementation = w.context.implementation →
      context.finalizeReturn = w.context.finalizeReturn → ClassifyEnd o w c
        (one (.bindContract w bound (some .implement) (some context) o.operation))
  | goesOn (change : Option String) : c.scope ≠ [] → c.checks ≠ [] → ClassifyEnd o w c
      (advance w .implement { w.context with persistenceChange := change } o.operation)

theorem classifyBound_ok {proposal : Reply} (hscope : ¬ (c.scope = [] ∧ proposal.paths = []))
    (hchecks : c.checks ≠ []) (h : classifyBound o w c proposal = .ok p) : ClassifyEnd o w c p := by
  simp only [classifyBound, guard_ok] at h
  obtain ⟨-, -, h⟩ := h
  split at h
  · next hmissing =>
      obtain ⟨bound, hbuild, h⟩ := bind_ok.mp h
      obtain rfl := pure_ok.mp h
      obtain ⟨-, -, -, -, -, -, hpaths, hsame, hinputs, -⟩ := Contract.build_eq_ok hbuild
      refine .binds (Or.inl ⟨hsame, ?_, hchecks⟩) ⟨rfl, rfl, rfl, Or.inl rfl⟩ rfl hinputs rfl rfl rfl rfl
      rw [hpaths]
      exact hmissing.2
  · next hscoped =>
      cases h
      refine .goesOn _ (fun hnone => ?_) hchecks
      by_cases hpaths : proposal.paths = []
      · exact hscope ⟨hnone, hpaths⟩
      · exact hscoped ⟨hnone, hpaths⟩

theorem classifyFresh_ok {proposal : Reply} (hscope : ¬ (c.scope = [] ∧ proposal.paths = []))
    (h : classifyFresh o w c proposal = .ok p) : ClassifyEnd o w c p := by
  simp only [classifyFresh, bind_ok, guard_ok, pure_ok] at h
  obtain ⟨checks, -, -, hproves, bound, hbuild, rfl⟩ := h
  obtain ⟨-, -, -, -, -, -, hpaths, hsame, hinputs, -⟩ := Contract.build_eq_ok hbuild
  refine .binds (Or.inr ⟨?_, fun hnone => ?_⟩) ⟨rfl, rfl, rfl, Or.inl rfl⟩ rfl hinputs rfl rfl rfl rfl
  · rw [hsame]
    simpa using hproves
  · rw [hpaths]
    exact fun hempty => hscope ⟨hnone, hempty⟩

theorem stepClassify_ok (h : stepClassify o w c = .ok p) : ClassifyEnd o w c p := by
  obtain ⟨proposal, -, h⟩ := bind_ok.mp h
  split at h
  · obtain rfl := pure_ok.mp h
    exact .asks
  · obtain rfl := pure_ok.mp h
    exact .notBug proposal
  · obtain rfl := pure_ok.mp h
    exact .iteration
  · rw [guard_ok] at h
    obtain ⟨hscope, h⟩ := h
    split at h
    · exact classifyFresh_ok hscope h
    · next hchecks => exact classifyBound_ok hscope hchecks h
  · cases h

/-- The child of one planned task: its scope and its checks are the task's. -/
theorem startTask_ok {task : Task} (h : startTask o w task = .ok p) :
    ∃ checks, compileChecks o.commands task.checks = .ok checks ∧
      p = (do
        one (.child w (o.fresh.headD "") .fix task.goal o.head
          { plannedTask := some task.taskId, persistenceChange := task.persistenceChange } task.paths checks
          15 none)
        promote (o.fresh.headD "")
          { phase := some (if task.classificationRequired then .classify else .implement)
            context := some { taskId := some task.taskId } }) := by
  obtain ⟨checks, hchecks, h⟩ := bind_ok.mp h
  obtain rfl := pure_ok.mp h
  exact ⟨checks, hchecks, rfl⟩

theorem chooseBatch_mem {available : Nat} {tasks batch : List Task} {paths : List Path} {task : Task}
    (h : task ∈ chooseBatch available tasks batch paths) : task ∈ tasks ∨ task ∈ batch := by
  induction tasks generalizing batch paths with
  | nil => exact Or.inr h
  | cons head tasks ih =>
      unfold chooseBatch at h
      have hlast : task ∈ batch ++ [head] → task ∈ head :: tasks ∨ task ∈ batch := by
        intro hmem
        rcases List.mem_append.mp hmem with hold | hnew
        · exact Or.inr hold
        · exact Or.inl (List.mem_cons.mpr (Or.inl (List.mem_singleton.mp hnew)))
      split at h
      · exact (ih h).imp_left (List.mem_cons_of_mem head)
      · split at h
        · exact hlast h
        · rcases ih h with hrest | hmem
          · exact Or.inl (List.mem_cons_of_mem head hrest)
          · exact hlast hmem

theorem readyTasks_mem {state : Context} {task : Task} (h : task ∈ readyTasks state) :
    task ∈ state.tasks := List.mem_of_mem_filter (List.mem_of_mem_filter h)

theorem readyBatch_mem {ready : List Task} {task : Task} (h : task ∈ readyBatch cfg o ready) :
    task ∈ ready := by
  unfold readyBatch at h
  split at h
  · rcases chooseBatch_mem h with hmem | hnone
    · exact hmem
    · cases hnone
  · cases h

/-- The tasks that a step of a run starts together, if there are several. -/
def Work.batch (cfg : Config) (o : Observed) (w : Work) : List Task :=
  readyBatch cfg o (readyTasks w.context)

/-- A step of a run starts one task by itself. -/
def Work.StartsAlone (cfg : Config) (o : Observed) (w : Work) : Prop :=
  w.phase = .implement ∧ w.mode = .run ∧ pendingTasks w.context ≠ [] ∧
    ¬ (∃ limit ∈ cfg.taskLimit, limit ≤ o.completedTasks) ∧ readyTasks w.context ≠ [] ∧
    ¬ 1 < (w.batch cfg o).length

/-- How a run goes through its tasks. -/
inductive ScheduleEnd (cfg : Config) (o : Observed) (w : Work) : Program Unit → Prop
  | done : pendingTasks w.context = [] → ScheduleEnd cfg o w (advance w .readme w.context none)
  | limited : pendingTasks w.context ≠ [] → ScheduleEnd cfg o w (one (.transition w .waiting
      { context := some { w.context with waitingFor := some .taskLimit } } none []))
  | batch : pendingTasks w.context ≠ [] → 1 < (w.batch cfg o).length →
      ScheduleEnd cfg o w (one (.batch w (o.fresh.zip (w.batch cfg o)) o.head))
  | starts {task p} : w.StartsAlone cfg o → task ∈ readyTasks w.context → startTask o w task = .ok p →
      ScheduleEnd cfg o w p

theorem Work.batch_mem {item : String × Task} (h : item ∈ o.fresh.zip (w.batch cfg o)) :
    item.2 ∈ readyTasks w.context := readyBatch_mem (List.of_mem_zip h).2

theorem stepSchedule_ok (hphase : w.phase = .implement) (hmode : w.mode = .run)
    (h : stepSchedule cfg o w = .ok p) : ScheduleEnd cfg o w p := by
  unfold stepSchedule at h
  split at h
  · next hnone =>
      cases h
      exact .done hnone
  · next hpending =>
      split at h
      · cases h
        exact .limited hpending
      · next hlimit =>
          split at h
          · cases h
          · next task rest hready =>
              have hmem : task ∈ readyTasks w.context := by
                rw [hready]
                exact List.mem_cons_self
              rw [← hready] at h
              simp only at h
              split at h
              · next hseveral =>
                  cases h
                  exact .batch hpending hseveral
              · next hsingle =>
                  refine .starts ⟨hphase, hmode, hpending, hlimit, ?_, hsingle⟩ hmem h
                  rw [hready]
                  exact List.cons_ne_nil _ _

theorem stepImplement_ok (h : stepImplement o w c = .ok p) :
    ∃ proposal candidate manifest, o.candidate = .ok candidate ∧ p = advance w
      (if manifest.isSome then .persistence else .verify)
      { w.context with
        candidate := some candidate, implementation := some proposal, persistenceManifest := manifest }
      o.operation := by
  simp only [stepImplement, bind_ok, guard_ok, pure_ok] at h
  obtain ⟨proposal, -, candidate, hcandidate, -, manifest, -, rfl⟩ := h
  exact ⟨proposal, candidate, manifest, hcandidate, rfl⟩

theorem stepPersistence_ok (h : stepPersistence o w = .ok p) :
    p = advance w .verify w.context (some o.effectOperation) ∨
      ∃ manifest, p = one (.transition w .waiting
        { context := some { w.context with
            waitingFor := some .approval, approval := some .persistenceReset,
            approvalPhase := some .persistence, approvalFingerprint := some manifest } } none []) := by
  unfold stepPersistence at h
  split at h
  · cases h
  · next manifest hmanifest =>
      obtain ⟨-, -, h⟩ := bind_ok.mp h
      split at h
      · obtain rfl := pure_ok.mp h
        exact Or.inr ⟨manifest, rfl⟩
      · obtain ⟨-, -, h⟩ := bind_ok.mp h
        obtain rfl := pure_ok.mp h
        exact Or.inl rfl

/-! ### Verification, review and delivery -/

theorem stepVerify_ok (h : stepVerify o w c = .ok p) :
    ∃ report, o.report = .ok report ∧
      ((∃ phase, (phase = .artifactVerify ∨ phase = .review ∨ w.mode = .run ∧ phase = .visualJudge) ∧
          p = advance w phase { w.context with verification := some report } (some o.effectOperation)) ∨
        c.inputs.releaseOnly = true ∧
          p = complete w { verification := some report, verifiedRevision := o.verifiedHead }
            (some o.effectOperation) none) := by
  obtain ⟨report, hreport, h⟩ := bind_ok.mp h
  refine ⟨report, hreport, ?_⟩
  split at h
  · next honly =>
      split at h
      · obtain rfl := pure_ok.mp h
        exact Or.inl ⟨_, Or.inl rfl, rfl⟩
      · obtain rfl := pure_ok.mp h
        exact Or.inr ⟨honly, rfl⟩
  · split at h
    · next hrun =>
        obtain rfl := pure_ok.mp h
        refine Or.inl ⟨_, ?_, rfl⟩
        split
        · exact Or.inr (Or.inr ⟨hrun, rfl⟩)
        · exact Or.inl rfl
    · obtain rfl := pure_ok.mp h
      exact Or.inl ⟨_, Or.inr (Or.inl rfl), rfl⟩

/-- Finalization compares the observed source with the verified one before and after. -/
theorem stepFinalize_ok (h : stepFinalize o w = .ok p) :
    ∃ report candidate, w.context.verification = some report ∧ o.candidate = .ok candidate ∧
      o.sourceSeal = report.sourceHash ∧ o.sourceSealAfter = report.sourceHash ∧
      p = advance w (w.context.finalizeReturn.getD .review) { w.context with candidate := some candidate }
        o.operation := by
  unfold stepFinalize at h
  split at h
  · cases h
  · next report hreport =>
      simp only [guard_ok, bind_ok, pure_ok] at h
      obtain ⟨hseal, reply, -, hashes, -, hafter, candidate, hcandidate, rfl⟩ := h
      exact ⟨report, candidate, hreport, hcandidate, not_not.mp hseal,
        not_not.mp fun hne => hafter (Or.inl hne), rfl⟩

/-- How a review ends. -/
inductive ReviewEnd (o : Observed) (w : Work) (c : Contract) : Program Unit → Prop
  | finalizes (proposal : Reply) : w.phase = .review → (∀ p ∈ proposal.evidencePaths, p ∈ c.outputs) →
      ReviewEnd o w c (advance w .finalize
        { w.context with finalizePaths := proposal.evidencePaths, finalizeReview := some proposal }
        o.operation)
  | notBug : w.context.disposition = some "not_bug" → ReviewEnd o w c
      (complete w { resolution := some "not_bug", verification := w.context.verification } o.operation none)
  | judged (proposal : Reply) : w.context.disposition ≠ some "not_bug" → w.phase = .visualJudge →
      ReviewEnd o w c
        (advance w .artifactVerify { w.context with visualReview := some proposal } o.operation)
  | accepted (proposal : Reply) : w.context.disposition ≠ some "not_bug" → w.phase = .acceptanceReview →
      ReviewEnd o w c
        (advance w .deliver { w.context with acceptanceReview := some proposal } o.operation)
  | reviewed (proposal : Reply) : w.context.disposition ≠ some "not_bug" → w.phase ≠ .acceptanceReview →
      ReviewEnd o w c (advance w .artifactVerify { w.context with review := some proposal } o.operation)

theorem stepReview_ok (h : stepReview o w c = .ok p) : ReviewEnd o w c p := by
  obtain ⟨proposal, -, h⟩ := bind_ok.mp h
  split at h
  · next hfinalize =>
      rw [guard_ok] at h
      obtain ⟨hpaths, h⟩ := h
      obtain rfl := pure_ok.mp h
      refine .finalizes proposal hfinalize.1 fun path hpath => ?_
      by_contra hforeign
      refine hpaths (Or.inr (List.any_eq_true.mpr ⟨path, hpath, ?_⟩))
      simp [hforeign]
  · obtain ⟨-, -, h⟩ := bind_ok.mp h
    split at h
    · next hnot =>
        obtain rfl := pure_ok.mp h
        exact .notBug hnot
    · next hnot =>
        split at h
        · next hjudge =>
            simp only [guard_ok, bind_ok, pure_ok] at h
            obtain ⟨-, -, -, rfl⟩ := h
            exact .judged proposal hnot hjudge
        · split at h
          · next haccept =>
              obtain rfl := pure_ok.mp h
              exact .accepted proposal hnot haccept
          · next haccept =>
              obtain rfl := pure_ok.mp h
              exact .reviewed proposal hnot haccept

/-- How the verification of artifacts ends. -/
inductive ArtifactEnd (o : Observed) (w : Work) (c : Contract) : Program Unit → Prop
  | nothing : c.hasArtifacts = false → ArtifactEnd o w c (advance w .deliver w.context none)
  | checked (report checked : Report) : w.context.verification = some report →
      o.sourceSeal = report.sourceHash → o.report = .ok checked → ArtifactEnd o w c
        (advance w .deliver { w.context with artifactVerification := some checked } (some o.effectOperation))
  | corrects (report : Report) : w.context.verification = some report →
      o.sourceSeal = report.sourceHash → ArtifactEnd o w c
        (advance w .finalize
          { w.context with
            finalizePaths := c.outputs.filter reportName
            finalizeReview := w.context.visualReview.or w.context.review
            finalizeReturn := some .artifactVerify
            artifactCorrections := w.context.artifactCorrections + 1 }
          o.failedChecks)

theorem stepArtifactVerify_ok (h : stepArtifactVerify o w c = .ok p) : ArtifactEnd o w c p := by
  unfold stepArtifactVerify at h
  split at h
  · next hnone =>
      cases h
      exact .nothing hnone
  · split at h
    · cases h
    · next report hreport =>
        rw [guard_ok] at h
        obtain ⟨hseal, h⟩ := h
        rw [not_not] at hseal
        split at h
        · next checked hchecked =>
            cases h
            exact .checked report checked hreport hseal hchecked
        · simp only [guard_ok] at h
          obtain ⟨-, h⟩ := h
          cases h
          exact .corrects report hreport hseal

/-- The reply of a diagnosis that delegates a fix. -/
def Reply.delegatesFix (proposal : Reply) : Bool :=
  proposal.action == "fix" && !proposal.foreignRepository && proposal.summary != ""

/-- How a diagnosis ends. -/
inductive DiagnoseEnd (o : Observed) (db : DB) (w : Work) (c : Contract) : Program Unit → Prop
  | asks : DiagnoseEnd o db w c (waitUser w o.operation)
  | resumes {id child} : db.works.find id = some child → child.status = .blocked →
      child.failureCategory ∉ [some .budget, some .reconciliation, some .migration] → DiagnoseEnd o db w c
        (do
          one (.transition child .ready { failure := some none } none [])
          one (.transition w .waiting
            { context := some { w.context with child := some child.id, waitingFor := some .child } }
            o.operation []))
  | fixes {proposal} : o.reply = .ok proposal → proposal.delegatesFix = true → DiagnoseEnd o db w c
      (do
        one (.child w (o.fresh.headD "") .fix proposal.summary o.head {} c.scope c.checks 15 o.operation)
        if c.checks ≠ [] then promote (o.fresh.headD "") { phase := some .implement } else .pure ())
  | runs {goal} : DiagnoseEnd o db w c
      (one (.child w (o.fresh.headD "") .run goal o.head {} [] [] 15 o.operation))
  | accepts : DiagnoseEnd o db w c (advance w .acceptance w.context o.operation)

theorem stepDiagnose_ok (h : stepDiagnose o db w c = .ok p) : DiagnoseEnd o db w c p := by
  obtain ⟨proposal, hreply, h⟩ := bind_ok.mp h
  split at h
  · obtain rfl := pure_ok.mp h
    exact .asks
  · obtain ⟨child, hchild, h⟩ := bind_ok.mp h
    simp only [resumeChild, guard_ok, not_or, not_not] at h
    obtain ⟨⟨-, hblocked⟩, hcategory, h⟩ := h
    cases h
    exact .resumes (DB.work_eq_ok.mp hchild) hblocked hcategory
  · next haction =>
      simp only [delegate, guard_ok] at h
      obtain ⟨hforeign, hgoal, h⟩ := h
      cases h
      refine .fixes hreply ?_
      simp [Reply.delegatesFix, haction, hforeign, hgoal]
  · simp only [delegate, guard_ok] at h
    obtain ⟨-, -, h⟩ := h
    cases h
    exact .runs
  · obtain rfl := pure_ok.mp h
    exact .accepts
  · cases h

theorem stepAcceptance_ok (h : stepAcceptance o w c = .ok p) :
    ∃ proposal report, o.report = .ok report ∧ p = (do
      one (.consume o.effectOperation)
      advance w .acceptanceReview
        { w.context with acceptance := some proposal, verification := some report } o.operation) := by
  simp only [stepAcceptance, bind_ok, guard_ok, pure_ok] at h
  obtain ⟨proposal, -, -, -, -, proposed, -, -, -, report, hreport, rfl⟩ := h
  exact ⟨proposal, report, hreport, rfl⟩

/-- How a delivery ends. -/
inductive DeliverEnd (o : Observed) (w : Work) (c : Contract) : Program Unit → Prop
  | attested : c.inputs.releaseOnly = true → DeliverEnd o w c
      (complete w { proofs w.context with verifiedRevision := o.verifiedHead } none none)
  | asks : w.mode = .run → DeliverEnd o w c (one (.transition w .waiting
      { context := some { w.context with
          waitingFor := some .approval, approval := some .release, approvalPhase := some .verify,
          approvalArtifacts := ((w.context.verification.map (·.outputs.keys)).getD []) } } none []))
  | handed (candidate : Candidate) : w.parent.isSome = true → o.candidate = .ok candidate → DeliverEnd o w c
      (complete w { proofs w.context with candidate := some candidate } none none)
  | delivered (candidate : Candidate) (delivery : Delivery) : w.parent = none → o.candidate = .ok candidate →
      o.delivery = .ok delivery → DeliverEnd o w c
        (complete w { proofs w.context with delivery := some delivery } (some o.effectOperation) o.deferred)

theorem stepDeliver_ok (h : stepDeliver cfg o w c = .ok p) : DeliverEnd o w c p := by
  unfold stepDeliver at h
  split at h
  · next honly =>
      cases h
      exact .attested honly
  · simp only [guard_ok] at h
    obtain ⟨-, -, -, h⟩ := h
    split at h
    · next hasks =>
        cases h
        exact .asks hasks.1
    · obtain ⟨candidate, hcandidate, h⟩ := bind_ok.mp h
      split at h
      · next hparent =>
          obtain rfl := pure_ok.mp h
          exact .handed candidate hparent hcandidate
      · next hparent =>
          obtain ⟨delivery, hdelivery, h⟩ := bind_ok.mp h
          obtain rfl := pure_ok.mp h
          exact .delivered candidate delivery (by simpa using hparent) hcandidate hdelivery

/-! ### One step -/

/-- How a step ends, phase by phase. -/
inductive StepEnd (cfg : Config) (o : Observed) (db : DB) (w : Work) (c : Contract) (p : Program Unit) : Prop
  | document : w.phase ∈ [.clarify, .prototype, .design, .plan, .providerResearch, .readme, .research] →
      DocumentEnd w c p → StepEnd cfg o db w c p
  | classify : w.phase = .classify → ClassifyEnd o w c p → StepEnd cfg o db w c p
  | schedule : w.phase = .implement → w.mode = .run → ScheduleEnd cfg o w p → StepEnd cfg o db w c p
  | implement : w.phase = .implement → w.mode ≠ .run → stepImplement o w c = .ok p → StepEnd cfg o db w c p
  | persistence : w.phase = .persistence → stepPersistence o w = .ok p → StepEnd cfg o db w c p
  | verify : w.phase = .verify → stepVerify o w c = .ok p → StepEnd cfg o db w c p
  | finalize : w.phase = .finalize → stepFinalize o w = .ok p → StepEnd cfg o db w c p
  | review : w.phase ∈ [.review, .visualJudge, .acceptanceReview] → ReviewEnd o w c p →
      StepEnd cfg o db w c p
  | artifactVerify : w.phase = .artifactVerify → ArtifactEnd o w c p → StepEnd cfg o db w c p
  | diagnose : w.phase = .diagnose → DiagnoseEnd o db w c p → StepEnd cfg o db w c p
  | acceptance : w.phase = .acceptance → stepAcceptance o w c = .ok p → StepEnd cfg o db w c p
  | deliver : w.phase = .deliver → DeliverEnd o w c p → StepEnd cfg o db w c p

theorem step_ok (h : w.step cfg o db c = .ok p) : StepEnd cfg o db w c p := by
  unfold Work.step at h
  split at h
  case h_1 hphase | h_2 hphase | h_3 hphase | h_4 hphase | h_5 hphase | h_6 hphase | h_7 hphase =>
    exact .document (by simp [hphase]) (stepDocument_ok h)
  case h_8 hphase => exact .classify hphase (stepClassify_ok h)
  case h_9 hphase =>
    split at h
    · next hmode => exact .schedule hphase hmode (stepSchedule_ok hphase hmode h)
    · next hmode => exact .implement hphase hmode h
  case h_10 hphase => exact .persistence hphase h
  case h_11 hphase => exact .verify hphase h
  case h_12 hphase => exact .finalize hphase h
  case h_13 hphase | h_14 hphase | h_15 hphase => exact .review (by simp [hphase]) (stepReview_ok h)
  case h_16 hphase => exact .artifactVerify hphase (stepArtifactVerify_ok h)
  case h_17 hphase => exact .diagnose hphase (stepDiagnose_ok h)
  case h_18 hphase => exact .acceptance hphase h
  case h_19 hphase => exact .deliver hphase (stepDeliver_ok h)
  case h_20 => cases h

end AutoAgents
