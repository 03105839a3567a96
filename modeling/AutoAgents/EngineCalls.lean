import AutoAgents.EngineLaws

/-! Every transaction of the engine. A run of the engine moves its store only by calls of a known form,
each sent with records that were read before; most of them leave the plan of a work item, its phase and
its approvals in order, and the others are listed by what they do instead. -/

namespace AutoAgents

open Base Program
open Git (Path Tree)

/-! ### Records -/

/-- The planned task a work item was created for, as its contract says. -/
def Work.planned (w : Work) : Option String := w.contract.head?.bind fun body => body.inputs.plannedTask

/-- The phases that a rejected approval can lead back to. -/
def approvalPhases : List Phase := [.clarify, .prototype, .design, .verify, .persistence]

/-- What holds of every record: a task it names is the one it was created for, and a run is never in the
phases that fixes and the other modes start in. -/
structure Work.Placed (w : Work) : Prop where
  named : ∀ task, w.context.taskId = some task → w.planned = some task
  approvalPhase : ∀ phase, w.context.approvalPhase = some phase → phase ∈ approvalPhases
  finalizeReturn : w.context.finalizeReturn = none ∨ w.context.finalizeReturn = some .artifactVerify
  modes : w.mode = .run → w.phase ∉ [.classify, .diagnose]

/-- Rows are placed, and keep the planned task they were created for. -/
def placedLaw : RowLaw where
  row := Work.Placed
  later w w' := w'.planned = w.planned
  refl _ := rfl
  trans h h' := h'.trans h
  charge _ _ h := ⟨h.named, h.approvalPhase, h.finalizeReturn, h.modes⟩
  charge_later _ _ := rfl
  charge_earlier _ _ := rfl

/-- A record that was read at some moment. -/
abbrev DB.Seen (db : DB) (w : Work) : Prop := placedLaw.Reads db w

/-- The store at some later moment. -/
abbrev DB.Since (db db' : DB) : Prop := placedLaw.law.since db db'

/-- A record whose revision is still current is the row, but for the calls charged since. -/
theorem DB.Seen.current {db : DB} {w row : Work} (h : db.Seen w) (hfind : db.works.find w.id = some row)
    (hrev : row.revision = w.revision) : row = { w with calls := row.calls } := by
  obtain ⟨-, row', hfind', hlater, -⟩ := h
  obtain rfl := Option.some.inj (hfind.symm.trans hfind')
  exact hlater.current hrev

/-! ### The calls of the engine -/

/-- How a new work item is moved on: a release proof, a delegated fix, and the child of a planned task. -/
inductive Promotes : Work → Changes → Prop
  | proof (c : Contract) (limit : Nat) :
      Promotes (DB.newWork c none (DB.rootPhase .run) limit) { phase := some .verify }
  | delegated (c : Contract) (parent : String) (limit : Nat) : c.inputs.plannedTask = none → c.mode = .fix →
      Promotes (DB.newWork c (some parent) (DB.childPhase .fix) limit) { phase := some .implement }
  | task (c : Contract) (parent : String) (limit : Nat) (id : String) (required : Bool) :
      c.inputs.plannedTask = some id → c.mode = .fix →
      Promotes (DB.newWork c (some parent) (DB.childPhase .fix) limit)
        { phase := some (if required then .classify else .implement), context := some { taskId := some id } }

/-- How `drive` answers an error of a step. -/
inductive Fails (w : Work) : Status → Changes → Prop
  | switched (name : String) : Fails w .ready
      { context := some { w.context with provider := some name } }
  | repaired : w.mode = .fix → Fails w .ready
      { phase := some .implement, context := some { w.context with disposition := none } }
  | asked : w.context.protocolRetries < 2 → Fails w .ready
      { context := some { w.context with protocolRetries := w.context.protocolRetries + 1 } }
  | blocked (failure : Option Failure) : Fails w .blocked { failure := some failure }

/-- What only some runs do: start a task by itself, take an approval back, and archive a work item. -/
structure Permits where
  alone : Prop
  rejects : Prop
  archives : Work → Prop

/-- Everything the engine does. -/
def Permits.all : Permits := ⟨True, True, fun _ => True⟩

/-- A call of the engine, with the records it was sent with. -/
inductive EngineCall (cfg : Config) (P : Permits) (db : DB) : Call → Prop
  | ledger {call} : call.onLedger = true → EngineCall cfg P db call
  | root {workflow work mode goal source authorization inputs scope checks maxCalls nodeLimit} :
      EngineCall cfg P db
        (.createWorkflow workflow work mode goal source authorization inputs scope checks maxCalls nodeLimit)
  | runs {w} : db.Seen w → w.status = .ready → EngineCall cfg P db (.transition w .running {} none [])
  | step {w o before c call rest} : db.Seen w → w.status = .running → before.Since db →
      before.contract w.contract = .ok c → w.step cfg o before c = .ok (.send call rest) →
      call.records = [w] → (w.StartsAlone cfg o → P.alone) → EngineCall cfg P db call
  | accepted {w operation proposal report} : db.Seen w → w.status = .running → w.phase = .acceptance →
      EngineCall cfg P db (.transition w .ready
        { phase := some .acceptanceReview
          context := some { w.context with acceptance := some proposal, verification := some report }
          failure := some none } operation [])
  | awaits {w child operation} : db.Seen w → w.status = .running → w.phase = .diagnose →
      EngineCall cfg P db (.transition w .waiting
        { context := some { w.context with child := some child, waitingFor := some .child } } operation [])
  | promoted {w₀ w changes} : Promotes w₀ changes → (changes.context ≠ none → P.alone) → Work.Later w₀ w →
      w.planned = w₀.planned → db.Seen w → EngineCall cfg P db (.transition w .running changes none [])
  | readied {w} : db.Seen w → EngineCall cfg P db (.transition w .ready {} none [])
  | linked {w result} : db.Seen w →
      EngineCall cfg P db (.transition w .completed { result := some result } none [])
  | resumes {w status changes operations} : db.Seen w → Resumes w status changes →
      EngineCall cfg P db (.transition w status changes none operations)
  | fails {w status changes operation} : db.Seen w → Fails w status changes →
      EngineCall cfg P db (.transition w status changes operation [])
  | joined {w child call} {candidate : Except ControlError Candidate} : db.Seen w → w.status = .waiting →
      w.context.waitingFor = some .child → w.context.child = some child.id → db.Seen child →
      child.status = .completed → childDone candidate w child = .send call (.pure ()) →
      EngineCall cfg P db call
  | gathered {w : Work} {children : List Work} {call} {candidate : Except ControlError Candidate} :
      db.Seen w → w.status = .waiting → w.context.waitingFor = some .children →
      (∀ child ∈ children, db.Seen child ∧ child.status = .completed) →
      (children.map (·.id)).Sublist w.context.children →
      childrenDone candidate w children = .send call (.pure ()) → EngineCall cfg P db call
  | approved {w hashes chosen call} : db.Seen w → approve w hashes chosen = .send call (.pure ()) →
      EngineCall cfg P db call
  | answered {w rejected pending call} : db.Seen w → (rejected = true → P.rejects) →
      answer w rejected pending = .send call (.pure ()) → EngineCall cfg P db call
  | generated {w id goal variant source scope call} : db.Seen w →
      generate w id goal variant source scope = .send call (.pure ()) → EngineCall cfg P db call
  | presented {w candidate} : db.Seen w → w.status = .waiting → w.context.approval = some .prototype →
      EngineCall cfg P db (.transition w .waiting
        { context := some { w.context with candidate := candidate } } none [])
  | cancelled {w} : db.Seen w → EngineCall cfg P db (.transition w .cancelled {} none [])
  | archived {w} : db.Seen w → w.status.terminal = true → P.archives w →
      EngineCall cfg P db (.transition w w.status { context := some { archived := true } } none [])
  | restarted {w} : db.Seen w → w.status = .blocked → EngineCall cfg P db (.transition w .cancelled
      { context := some { w.context with archived := true } } none [])

theorem EngineCall.later {cfg : Config} {P : Permits} {db db' : DB} {call : Call}
    (h : EngineCall cfg P db call) (hs : db.Since db') : EngineCall cfg P db' call := by
  cases h with
  | ledger hledger => exact .ledger hledger
  | root => exact .root
  | runs hw hready => exact .runs (hw.later hs) hready
  | step hw hrun hbefore hc hstep hrecord halone =>
      exact .step (hw.later hs) hrun (placedLaw.law.trans hbefore hs) hc hstep hrecord halone
  | accepted hw hrun hphase => exact .accepted (hw.later hs) hrun hphase
  | awaits hw hrun hphase => exact .awaits (hw.later hs) hrun hphase
  | promoted hchanges halone hlater hplanned hw =>
      exact .promoted hchanges halone hlater hplanned (hw.later hs)
  | readied hw => exact .readied (hw.later hs)
  | linked hw => exact .linked (hw.later hs)
  | resumes hw hresumes => exact .resumes (hw.later hs) hresumes
  | fails hw hfails => exact .fails (hw.later hs) hfails
  | joined hw hstatus hwaiting hchild hseen hdone hcall =>
      exact .joined (hw.later hs) hstatus hwaiting hchild (hseen.later hs) hdone hcall
  | gathered hw hstatus hwaiting hdone hsub hcall =>
      exact .gathered (hw.later hs) hstatus hwaiting
        (fun child hchild => ⟨(hdone child hchild).1.later hs, (hdone child hchild).2⟩) hsub hcall
  | approved hw hcall => exact .approved (hw.later hs) hcall
  | answered hw hrejects hcall => exact .answered (hw.later hs) hrejects hcall
  | generated hw hcall => exact .generated (hw.later hs) hcall
  | presented hw hwaiting hgate => exact .presented (hw.later hs) hwaiting hgate
  | cancelled hw => exact .cancelled (hw.later hs)
  | archived hw hterminal hpermits => exact .archived (hw.later hs) hterminal hpermits
  | restarted hw hblocked => exact .restarted (hw.later hs) hblocked

/-! ### What the calls do to a row -/

/-- The phases in which a fix executes the contract it was given. -/
def taskPhases : List Phase := [.implement, .persistence, .verify, .finalize, .review, .artifactVerify, .deliver]

/-- A fix in the midst of its contract. -/
def Work.Executes (w : Work) : Prop := w.phase ∈ taskPhases ∧ ∀ phase ∈ w.context.returns, phase ∈ taskPhases

/-- The plan is still to be made, or a document before it is up for approval. -/
def Work.Early (w : Work) : Prop :=
  w.phase ∈ planPhases ∨
    w.context.waitingFor = some .approval ∧ ∃ phase ∈ w.context.approvalPhase, phase ∈ planPhases

/-- A row that goes on with its plan and its phases in order, and takes no approval back unless it may. -/
structure Work.Steady (P : Permits) (w w' : Work) : Prop where
  tracks : w.context.Tracks w'.context
  approvals : P.rejects ∨ w.context.Approves w'.context
  planned : w'.planned = w.planned
  placed : w'.Placed
  early : w'.Early → w.Early
  readme : w.mode = .run → w.phase = .implement → w'.phase = .readme → pendingTasks w.context = []
  executes : w.mode = .fix → w.Executes → w'.Executes

section

variable {P : Permits} {w w' : Work}

theorem Work.Steady.of_same (hplaced : w.Placed) (hmode : w'.mode = w.mode) (hcontext : w'.context = w.context)
    (hphase : w'.phase = w.phase) (hcontract : w'.contract = w.contract) : w.Steady P w' := by
  have hplanned : w'.planned = w.planned := by rw [Work.planned, hcontract, Work.planned]
  refine ⟨hcontext ▸ .refl _, Or.inr (Or.inl (congrArg _ hcontext)), hplanned, ?_, fun h => ?_, ?_, fun _ h => ?_⟩
  · constructor
    · rw [hcontext, hplanned]
      exact hplaced.named
    · rw [hcontext]
      exact hplaced.approvalPhase
    · rw [hcontext]
      exact hplaced.finalizeReturn
    · rw [hmode, hphase]
      exact hplaced.modes
  · rwa [Work.Early, hphase, hcontext] at h
  · intro _ himplement hreadme
    rw [hphase, himplement] at hreadme
    cases hreadme
  · rwa [Work.Executes, hphase, hcontext]

variable {status : Status} {context : Context} {failure : Option (Option Failure)} {phase : Option Phase}

/-- A row with another context, that may also move on to a phase. -/
theorem Work.Steady.of_context (hplaced : w.Placed) (htracks : w.context.Tracks context)
    (happrovals : P.rejects ∨ w.context.Approves context)
    (happroval : context.approvalPhase = w.context.approvalPhase)
    (hreturn : context.finalizeReturn = w.context.finalizeReturn ∨
      context.finalizeReturn = some .artifactVerify)
    (hwaiting : context.waitingFor = w.context.waitingFor ∨ context.waitingFor ≠ some .approval)
    (hmodes : ∀ next ∈ phase, w.mode = .run → next ∉ [.classify, .diagnose])
    (hearly : ∀ next ∈ phase, next ∈ planPhases → w.phase ∈ planPhases)
    (hreadme : ∀ next ∈ phase, w.mode = .run → w.phase = .implement → next = .readme →
      pendingTasks w.context = [])
    (hexecutes : ∀ next ∈ phase, w.mode = .fix → w.Executes → next ∈ taskPhases) :
    w.Steady P (DB.changed status { phase, context := some context, failure } w) := by
  have hphase : ∀ {Q : Phase → Prop}, (∀ next ∈ phase, Q next) → Q w.phase →
      Q (DB.changed status { phase, context := some context, failure } w).phase := by
    intro Q hnext hold
    cases phase with
    | none => exact hold
    | some next => exact hnext next rfl
  refine ⟨htracks, happrovals, rfl, ⟨?_, ?_, ?_, ?_⟩, ?_, ?_, ?_⟩
  · intro task htask
    exact hplaced.named task (htracks.taskId ▸ htask)
  · intro back hback
    exact hplaced.approvalPhase back (happroval ▸ hback)
  · rcases hreturn with hsame | hartifact
    · exact hsame ▸ hplaced.finalizeReturn
    · exact Or.inr hartifact
  · exact hphase (Q := fun next => w.mode = .run → next ∉ [.classify, .diagnose]) hmodes hplaced.modes
  · rintro (hplan | ⟨hasked, hback⟩)
    · exact Or.inl (hphase (Q := fun next => next ∈ planPhases → w.phase ∈ planPhases) hearly (fun h => h)
        hplan)
    · refine Or.inr ⟨?_, by rwa [← happroval]⟩
      rcases hwaiting with hsame | hother
      · rw [← hsame]
        exact hasked
      · exact absurd hasked hother
  · intro hrun himplement
    exact hphase (Q := fun next => next = .readme → pendingTasks w.context = [])
      (fun next hnext => hreadme next hnext hrun himplement) fun h => by
        rw [himplement] at h
        cases h
  · intro hfix h
    refine ⟨hphase (Q := (· ∈ taskPhases)) (fun next hnext => hexecutes next hnext hfix h) h.1, ?_⟩
    intro back hback
    rcases Context.mem_returns.mp hback with happroved | hfinal
    · exact h.2 back (Context.mem_returns.mpr (Or.inl (happroval ▸ happroved)))
    · rcases hreturn with hsame | hartifact
      · exact h.2 back (Context.mem_returns.mpr (Or.inr (hsame ▸ hfinal)))
      · obtain rfl := Option.some.inj (hartifact.symm.trans hfinal)
        decide

/-- A row that waits for an approval, which a rejection would take back to a phase. -/
theorem Work.Steady.of_asked {back : Phase} (hplaced : w.Placed) (htracks : w.context.Tracks context)
    (happrovals : w.context.Approves context)
    (happroval : context.approvalPhase = some back) (hback : back ∈ approvalPhases)
    (hreturn : context.finalizeReturn = w.context.finalizeReturn)
    (hnext : ∀ next ∈ phase, next ∉ [.classify, .diagnose] ∧ (w.phase = .implement → next ≠ .readme) ∧
      (next ∈ planPhases → w.phase ∈ planPhases) ∧ (w.phase ∈ taskPhases → next ∈ taskPhases))
    (hearly : back ∈ planPhases → w.phase ∈ planPhases)
    (hexecutes : w.phase ∈ taskPhases → back ∈ taskPhases) :
    w.Steady P (DB.changed status { phase, context := some context, failure } w) := by
  have hphase : ∀ {Q : Phase → Prop}, (∀ next ∈ phase, Q next) → Q w.phase →
      Q (DB.changed status { phase, context := some context, failure } w).phase := by
    intro Q hnext hold
    cases phase with
    | none => exact hold
    | some next => exact hnext next rfl
  refine ⟨htracks, Or.inr happrovals, rfl, ⟨?_, ?_, ?_, ?_⟩, ?_, ?_, ?_⟩
  · intro task htask
    exact hplaced.named task (htracks.taskId ▸ htask)
  · intro back' hback'
    obtain rfl := Option.some.inj (happroval.symm.trans hback')
    exact hback
  · exact hreturn ▸ hplaced.finalizeReturn
  · exact hphase (Q := fun next => w.mode = .run → next ∉ [.classify, .diagnose])
      (fun next hmem _ => (hnext next hmem).1) hplaced.modes
  · rintro (hplan | ⟨-, back', hback', hplan⟩)
    · exact Or.inl (hphase (Q := fun next => next ∈ planPhases → w.phase ∈ planPhases)
        (fun next hmem => (hnext next hmem).2.2.1) (fun h => h) hplan)
    · obtain rfl := Option.some.inj (happroval.symm.trans hback')
      exact Or.inl (hearly hplan)
  · intro _ himplement
    refine hphase (Q := fun next => next = .readme → pendingTasks w.context = []) ?_ fun h => ?_
    · exact fun next hmem hreadme => absurd hreadme ((hnext next hmem).2.1 himplement)
    · rw [himplement] at h
      cases h
  · intro _ h
    refine ⟨hphase (Q := (· ∈ taskPhases)) (fun next hmem => (hnext next hmem).2.2.2 h.1) h.1, ?_⟩
    intro back' hback'
    rcases Context.mem_returns.mp hback' with happroved | hfinal
    · obtain rfl := Option.some.inj (happroval.symm.trans happroved)
      exact hexecutes h.1
    · exact h.2 back' (Context.mem_returns.mpr (Or.inr (hreturn ▸ hfinal)))

end

/-- The calls that add work items. -/
def Call.creates : Call → Bool
  | .createWorkflow .. | .child .. | .batch .. | .addon .. => true
  | _ => false

theorem Call.creates_of_adds {call : Call} {db : DB} {w : Work} (h : call.Adds db w) : call.creates = true := by
  cases call <;> first | rfl | exact absurd h id

/-- What a call of the engine does to the row of its record. -/
inductive Rewrites (cfg : Config) (P : Permits) (db : DB) (w : Work) : Call → Prop
  | steady {call} : call.creates = false → w.Steady P (call.rewritten w) → Rewrites cfg P db w call
  | planned {c : Contract} {checks tasks candidate operation} : w.status = .running → w.phase = .plan →
      PlanAccepted tasks → c.inputs.plannedTask = w.planned →
      Rewrites cfg P db w (.bindContract w { c with checks } (some .providerResearch)
        (some { w.context with tasks, doneTasks := [], candidate := some candidate }) operation)
  | single {id mode goal source scope checks limit operation} {inputs : Inputs} : w.status = .running →
      ((w.phase = .classify ∨ w.phase = .diagnose) ∧ inputs = {} ∨
        P.alone ∧ w.mode = .run ∧ w.phase = .implement ∧
          ∃ task ∈ readyTasks w.context, inputs.plannedTask = some task.taskId) →
      Rewrites cfg P db w (.child w id mode goal source inputs scope checks limit operation)
  | awaits {child operation} : w.phase = .diagnose → Rewrites cfg P db w (.transition w .waiting
      { context := some { w.context with child := some child, waitingFor := some .child } } operation [])
  | batch {o : Observed} : w.status = .running → w.mode = .run → w.phase = .implement →
      Rewrites cfg P db w (.batch w (o.fresh.zip (w.batch cfg o)) o.head)
  | joined {child : Work} {candidate done} : w.status = .waiting → w.context.waitingFor = some .child →
      w.context.child = some child.id → db.Seen child → child.status = .completed →
      doneWith w child = .ok done → Rewrites cfg P db w (.transition w .ready
        { phase := some
            (if w.mode = .collab ∨ w.mode = .fix ∧ w.phase = .classify then .acceptance else w.phase)
          context := some { w.context with
            child := none, waitingFor := none, candidate := some candidate
            childResults := w.context.childResults ++ [child.id]
            doneTasks := done } } none [])
  | gathered {children : List Work} {tasks candidate} : w.status = .waiting →
      w.context.waitingFor = some .children → (∀ child ∈ children, db.Seen child ∧ child.status = .completed) →
      (children.map (·.id)).Sublist w.context.children → children.mapM finishedTask = .ok tasks →
      Rewrites cfg P db w (.transition w .ready
        { context := some { w.context with
            children := [], waitingFor := none, candidate := some candidate
            doneTasks := w.context.doneTasks ++ tasks } } none [])
  | promoted {task : String} {required : Bool} : P.alone → w.mode = .fix → w.planned = some task →
      Rewrites cfg P db w (.transition w .running
        { phase := some (if required then .classify else .implement)
          context := some { taskId := some task } } none [])
  | archived : w.status.terminal = true → P.archives w → Rewrites cfg P db w
      (.transition w w.status { context := some { archived := true } } none [])

section

variable {cfg : Config} {o : Observed} {P : Permits} {db : DB} {w : Work} {c : Contract} {p : Program Unit}

theorem Work.planned_of_contract {db : DB} (h : db.contract w.contract = .ok c) :
    w.planned = c.inputs.plannedTask := by
  rw [Work.planned, ← DB.contract_identity h]
  rfl

/-- The first call of a program that begins with one. -/
def Program.first {α : Type} : Program α → Option Call
  | .send call _ => some call
  | _ => none

theorem first_rewrites {call : Call} (hfirst : Program.first p = some call) (h : Rewrites cfg P db w call) :
    ∀ call ∈ Program.first p, Rewrites cfg P db w call := by
  intro call' hcall
  rw [hfirst] at hcall
  cases hcall
  exact h

/-- A step goes on with the context it has. -/
theorem advances {phase : Phase} {operation : Option OperationId} {context : Context}
    (hplaced : w.Placed) (htracks : w.context.Tracks context)
    (happrovals : context.approvals = w.context.approvals)
    (happroval : context.approvalPhase = w.context.approvalPhase)
    (hreturn : context.finalizeReturn = w.context.finalizeReturn ∨
      context.finalizeReturn = some .artifactVerify)
    (hwaiting : context.waitingFor = w.context.waitingFor)
    (hphase : phase ∈ [.acceptance, .acceptanceReview, .visualJudge] ∨ phase ∈ taskPhases)
    (hexecutes : w.phase ∈ taskPhases → w.mode = .fix → phase ∈ taskPhases) :
    Rewrites cfg P db w (.transition w .ready
      { phase := some phase, context := some context, failure := some none } operation []) := by
  have hnone : phase ∉ [.classify, .diagnose] ∧ phase ∉ planPhases ∧ phase ≠ .readme := by
    rcases hphase with hmem | hmem
    all_goals
      simp only [taskPhases, List.mem_cons, List.not_mem_nil, or_false] at hmem
      rcases hmem with rfl | rfl | rfl | rfl | rfl | rfl | rfl <;> decide
  refine .steady rfl (.of_context hplaced htracks (Or.inr (Or.inl happrovals)) happroval hreturn (Or.inl hwaiting)
    ?_ ?_ ?_ ?_)
  · rintro _ ⟨⟩ -
    exact hnone.1
  · rintro _ ⟨⟩ hplan
    exact absurd hplan hnone.2.1
  · rintro _ ⟨⟩ - - hreadme
    exact absurd hreadme hnone.2.2
  · rintro _ ⟨⟩ hfix h
    exact hexecutes h.1 hfix

theorem advance_rewrites {phase : Phase} {operation : Option OperationId} {context : Context}
    (hplaced : w.Placed) (htracks : w.context.Tracks context)
    (happrovals : context.approvals = w.context.approvals)
    (happroval : context.approvalPhase = w.context.approvalPhase)
    (hreturn : context.finalizeReturn = w.context.finalizeReturn ∨
      context.finalizeReturn = some .artifactVerify)
    (hwaiting : context.waitingFor = w.context.waitingFor)
    (hphase : phase ∈ [.acceptance, .acceptanceReview, .visualJudge] ∨ phase ∈ taskPhases)
    (hexecutes : w.phase ∈ taskPhases → w.mode = .fix → phase ∈ taskPhases) :
    ∀ call ∈ Program.first (advance w phase context operation), Rewrites cfg P db w call :=
  first_rewrites rfl (advances hplaced htracks happrovals happroval hreturn hwaiting hphase hexecutes)

theorem waits_rewrites {operation : OperationId} (hplaced : w.Placed) :
    ∀ call ∈ Program.first (waitUser w operation), Rewrites cfg P db w call := by
  refine first_rewrites rfl (.steady rfl (.of_context hplaced ⟨rfl, rfl, rfl, Or.inr rfl⟩ (Or.inr (Or.inl rfl)) rfl
    (Or.inl rfl) (Or.inr ?_) ?_ ?_ ?_ ?_))
  · exact fun h => by cases h
  all_goals exact fun _ hnone => nomatch hnone

theorem complete_rewrites {result : WorkResult} {operation : Option OperationId} {deferred : Option Deferred}
    (hplaced : w.Placed) :
    ∀ call ∈ Program.first (complete w result operation deferred), Rewrites cfg P db w call :=
  first_rewrites rfl (.steady rfl (.of_same hplaced rfl rfl rfl rfl))

/-- What a document phase does to its row. -/
theorem document_rewrites (hplaced : w.Placed) (hrun : w.status = .running)
    (hplanned : w.planned = c.inputs.plannedTask)
    (hphase : w.phase ∈ [.clarify, .prototype, .design, .plan, .providerResearch, .readme, .research])
    (hend : DocumentEnd w c p) : ∀ call ∈ Program.first p, Rewrites cfg P db w call := by
  have hforeign : w.phase ∉ taskPhases ∧ w.phase ≠ .implement := by
    simp only [List.mem_cons, List.not_mem_nil, or_false] at hphase
    rcases hphase with h | h | h | h | h | h | h <;> rw [h] <;> decide
  cases hend with
  | @moved status phase context _ hmoves htracks happrovals _ _ hasks hreturn hnext =>
      obtain ⟨failure, operation, rfl⟩ := hmoves
      have hmodes : ∀ next ∈ phase, next ∉ [.classify, .diagnose] := by
        intro next hmem hstart
        rcases hnext next hmem with ⟨-, rfl⟩ | ⟨hlist, -⟩
        · exact absurd hstart (by decide)
        · simp only [List.mem_cons, List.not_mem_nil, or_false] at hstart
          rcases hstart with rfl | rfl <;> exact absurd hlist (by decide)
      have hplans : ∀ next ∈ phase, next ∈ planPhases → w.phase ∈ planPhases := by
        intro next hmem hplan
        rcases hnext next hmem with ⟨-, rfl⟩ | ⟨-, hback⟩
        · exact absurd hplan (by decide)
        · exact hback hplan
      refine first_rewrites rfl (.steady rfl ?_)
      rcases hasks with ⟨happroval, hwaiting⟩ | ⟨happroval, hgate⟩
      · refine .of_context hplaced htracks (Or.inr happrovals) happroval (Or.inl hreturn) ?_
          (fun next hmem _ => hmodes next hmem) hplans ?_ ?_
        · rcases hwaiting with hsame | huser
          · exact Or.inl hsame
          · exact Or.inr fun h => by rw [huser] at h; cases h
        · exact fun _ _ _ himplement => absurd himplement hforeign.2
        · exact fun _ _ _ h => absurd h.1 hforeign.1
      · have hplan : w.phase ∈ planPhases ∧ w.phase ∈ approvalPhases := by
          simp only [List.mem_cons, List.not_mem_nil, or_false] at hgate
          rcases hgate with h | h | h <;> rw [h] <;> decide
        refine .of_asked hplaced htracks happrovals happroval hplan.2 hreturn (fun next hmem => ?_)
          (fun _ => hplan.1) fun h => absurd h hforeign.1
        exact ⟨hmodes next hmem, fun h => absurd h hforeign.2, hplans next hmem, fun h => absurd h hforeign.1⟩
  | planned hplan _ htasks =>
      exact first_rewrites rfl (.planned hrun hplan htasks hplanned.symm)
  | variant => exact complete_rewrites hplaced

/-- What the classification of a fix does to its row. -/
theorem classify_rewrites (hplaced : w.Placed) (hrun : w.status = .running)
    (hplanned : w.planned = c.inputs.plannedTask) (hphase : w.phase = .classify) (hend : ClassifyEnd o w c p) :
    ∀ call ∈ Program.first p, Rewrites cfg P db w call := by
  have hforeign : w.phase ∉ taskPhases := by
    rw [hphase]
    decide
  cases hend with
  | asks => exact waits_rewrites hplaced
  | notBug proposal =>
      refine advance_rewrites hplaced ⟨rfl, rfl, rfl, Or.inl rfl⟩ rfl rfl (Or.inl rfl) rfl (Or.inr ?_)
        fun h => absurd h hforeign
      split <;> decide
  | iteration => exact first_rewrites rfl (.single hrun (Or.inl ⟨Or.inl hphase, rfl⟩))
  | @binds bound context _ htracks happrovals hinputs hwaiting happroval _ hreturn =>
      have hsteady : w.Steady P (DB.changed .ready
          { phase := some .implement, context := some context } w) := by
        refine .of_context hplaced htracks (Or.inr (Or.inl happrovals)) happroval (Or.inl hreturn) (Or.inl hwaiting)
          ?_ ?_ ?_ ?_
        · rintro _ ⟨⟩ -
          decide
        · rintro _ ⟨⟩ h
          exact absurd h (by decide)
        · rintro _ ⟨⟩ - - h
          exact absurd h (by decide)
        · rintro _ ⟨⟩ - h
          decide
      have hsame : Work.planned (DB.bound bound.identity (some .implement) context w) = w.planned := by
        rw [hplanned, ← hinputs]
        rfl
      refine first_rewrites rfl (.steady rfl ⟨hsteady.tracks, hsteady.approvals, hsame, ⟨?_, ?_, ?_, ?_⟩,
        hsteady.early, hsteady.readme, hsteady.executes⟩)
      · intro task htask
        exact hsame.trans (hplaced.named task (htracks.taskId ▸ htask))
      · exact hsteady.placed.approvalPhase
      · exact hsteady.placed.finalizeReturn
      · exact hsteady.placed.modes
  | goesOn =>
      exact advance_rewrites hplaced ⟨rfl, rfl, rfl, Or.inl rfl⟩ rfl rfl (Or.inl rfl) rfl (Or.inr (by decide))
        fun h => absurd h hforeign

/-- What the tasks of a run do to its row. -/
theorem schedule_rewrites (hplaced : w.Placed) (hrun : w.status = .running) (hphase : w.phase = .implement)
    (hmode : w.mode = .run) (halone : w.StartsAlone cfg o → P.alone) (hend : ScheduleEnd cfg o w p) :
    ∀ call ∈ Program.first p, Rewrites cfg P db w call := by
  cases hend with
  | done hnone =>
      refine first_rewrites rfl (.steady rfl (.of_context hplaced (.refl _) (Or.inr (Or.inl rfl)) rfl (Or.inl rfl)
        (Or.inl rfl) ?_ ?_ ?_ ?_))
      · rintro _ ⟨⟩ -
        decide
      · rintro _ ⟨⟩ h
        exact absurd h (by decide)
      · rintro _ ⟨⟩ - - -
        exact hnone
      · rintro _ ⟨⟩ hfix
        rw [hmode] at hfix
        cases hfix
  | limited =>
      refine first_rewrites rfl (.steady rfl (.of_context hplaced ⟨rfl, rfl, rfl, Or.inr rfl⟩ (Or.inr (Or.inl rfl)) rfl
        (Or.inl rfl) (Or.inr fun h => by cases h) ?_ ?_ ?_ ?_))
      all_goals exact fun _ hnone => nomatch hnone
  | batch => exact first_rewrites rfl (.batch hrun hmode hphase)
  | @starts task _ hsingle hready hstart =>
      obtain ⟨checks, -, rfl⟩ := startTask_ok hstart
      exact first_rewrites rfl (.single hrun (Or.inr ⟨halone hsingle, hmode, hphase, task, hready, rfl⟩))

/-- A row that waits for an approval in its phase. -/
theorem asks_rewrites {context : Context} {back : Phase} (hplaced : w.Placed)
    (htracks : w.context.Tracks context) (happrovals : context.approvals = w.context.approvals)
    (happroval : context.approvalPhase = some back) (hback : back ∈ [.persistence, .verify])
    (hreturn : context.finalizeReturn = w.context.finalizeReturn) :
    Rewrites cfg P db w (.transition w .waiting { context := some context } none []) := by
  have hmember : back ∈ approvalPhases ∧ back ∉ planPhases ∧ back ∈ taskPhases := by
    simp only [List.mem_cons, List.not_mem_nil, or_false] at hback
    rcases hback with rfl | rfl <;> decide
  exact .steady rfl (.of_asked hplaced htracks (Or.inl happrovals) happroval hmember.1 hreturn
    (fun _ hnone => nomatch hnone) (fun h => absurd h hmember.2.1) fun _ => hmember.2.2)

/-- The first call of a step, where it is about the work item itself. -/
theorem step_rewrites {before : DB} (hrun : w.status = .running) (hplaced : w.Placed)
    (hc : before.contract w.contract = .ok c) (halone : w.StartsAlone cfg o → P.alone)
    (hstep : w.step cfg o before c = .ok p) :
    ∀ call ∈ Program.first p, call.records = [w] → Rewrites cfg P db w call := by
  have hplanned := Work.planned_of_contract hc
  have hall : (∀ call ∈ Program.first p, Rewrites cfg P db w call) →
      ∀ call ∈ Program.first p, call.records = [w] → Rewrites cfg P db w call :=
    fun h call hcall _ => h call hcall
  cases step_ok hstep with
  | document hphase hend => exact hall (document_rewrites hplaced hrun hplanned hphase hend)
  | classify hphase hend => exact hall (classify_rewrites hplaced hrun hplanned hphase hend)
  | schedule hphase hmode hend => exact hall (schedule_rewrites hplaced hrun hphase hmode halone hend)
  | implement hphase hmode hend =>
      obtain ⟨proposal, candidate, manifest, -, rfl⟩ := stepImplement_ok hend
      refine hall (advance_rewrites hplaced ⟨rfl, rfl, rfl, Or.inl rfl⟩ rfl rfl (Or.inl rfl) rfl (Or.inr ?_)
        fun _ _ => ?_)
      all_goals split <;> decide
  | persistence hphase hend =>
      rcases stepPersistence_ok hend with rfl | ⟨manifest, rfl⟩
      · exact hall (advance_rewrites hplaced ⟨rfl, rfl, rfl, Or.inl rfl⟩ rfl rfl (Or.inl rfl) rfl
          (Or.inr (by decide)) fun _ _ => by decide)
      · exact hall (first_rewrites rfl
          (asks_rewrites hplaced ⟨rfl, rfl, rfl, Or.inr rfl⟩ rfl rfl (by decide) rfl))
  | verify hphase hend =>
      obtain ⟨report, -, ⟨phase, hnext, rfl⟩ | ⟨-, rfl⟩⟩ := stepVerify_ok hend
      · refine hall (advance_rewrites hplaced ⟨rfl, rfl, rfl, Or.inl rfl⟩ rfl rfl (Or.inl rfl) rfl ?_ fun _ hfix => ?_)
        · rcases hnext with rfl | rfl | ⟨-, rfl⟩ <;> decide
        · rcases hnext with rfl | rfl | ⟨hmode, -⟩
          · decide
          · decide
          · rw [hfix] at hmode
            cases hmode
      · exact hall (complete_rewrites hplaced)
  | finalize hphase hend =>
      obtain ⟨report, candidate, -, -, -, -, rfl⟩ := stepFinalize_ok hend
      refine hall (advance_rewrites hplaced ⟨rfl, rfl, rfl, Or.inl rfl⟩ rfl rfl (Or.inl rfl) rfl (Or.inr ?_)
        fun _ _ => ?_)
      all_goals rcases hplaced.finalizeReturn with h | h <;> rw [h] <;> decide
  | review hphase hend =>
      cases hend with
      | notBug => exact hall (complete_rewrites hplaced)
      | finalizes | judged | accepted | reviewed =>
          exact hall (advance_rewrites hplaced ⟨rfl, rfl, rfl, Or.inl rfl⟩ rfl rfl (Or.inl rfl) rfl
            (Or.inr (by decide)) fun _ _ => by decide)
  | artifactVerify hphase hend =>
      cases hend with
      | nothing | checked =>
          exact hall (advance_rewrites hplaced ⟨rfl, rfl, rfl, Or.inl rfl⟩ rfl rfl (Or.inl rfl) rfl
            (Or.inr (by decide)) fun _ _ => by decide)
      | corrects =>
          exact hall (advance_rewrites hplaced ⟨rfl, rfl, rfl, Or.inl rfl⟩ rfl rfl (Or.inr rfl) rfl
            (Or.inr (by decide)) fun _ _ => by decide)
  | diagnose hphase hend =>
      have hforeign : w.phase ∉ taskPhases := by
        rw [hphase]
        decide
      cases hend with
      | asks => exact hall (waits_rewrites hplaced)
      | @resumes id child hfind hblocked hcategory =>
          rintro _ ⟨⟩ hrecord
          obtain rfl : child = w := List.singleton_inj.mp hrecord
          rw [hrun] at hblocked
          cases hblocked
      | fixes => exact hall (first_rewrites rfl (.single hrun (Or.inl ⟨Or.inr hphase, rfl⟩)))
      | runs => exact hall (first_rewrites rfl (.single hrun (Or.inl ⟨Or.inr hphase, rfl⟩)))
      | accepts =>
          exact hall (advance_rewrites hplaced ⟨rfl, rfl, rfl, Or.inl rfl⟩ rfl rfl (Or.inl rfl) rfl
            (Or.inl (by decide)) fun h => absurd h hforeign)
  | acceptance hphase hend =>
      obtain ⟨proposal, report, -, rfl⟩ := stepAcceptance_ok hend
      rintro _ ⟨⟩ hrecord
      cases hrecord
  | deliver hphase hend =>
      cases hend with
      | asks => exact hall (first_rewrites rfl
          (asks_rewrites hplaced ⟨rfl, rfl, rfl, Or.inr rfl⟩ rfl rfl (by decide) rfl))
      | attested | handed | delivered => exact hall (complete_rewrites hplaced)

/-- What the answer to an error does to a row. -/
theorem fails_rewrites {status : Status} {changes : Changes} {operation : Option OperationId}
    (hplaced : w.Placed) (h : Fails w status changes) :
    Rewrites cfg P db w (.transition w status changes operation []) := by
  cases h with
  | switched | asked =>
      refine .steady rfl (.of_context hplaced ⟨rfl, rfl, rfl, Or.inl rfl⟩ (Or.inr (Or.inl rfl)) rfl (Or.inl rfl)
        (Or.inl rfl) ?_ ?_ ?_ ?_)
      all_goals exact fun _ hnone => nomatch hnone
  | repaired hfix =>
      refine .steady rfl (.of_context hplaced ⟨rfl, rfl, rfl, Or.inl rfl⟩ (Or.inr (Or.inl rfl)) rfl (Or.inl rfl)
        (Or.inl rfl) ?_ ?_ ?_ ?_)
      · rintro _ ⟨⟩ -
        decide
      · rintro _ ⟨⟩ h
        exact absurd h (by decide)
      · rintro _ ⟨⟩ - - h
        exact absurd h (by decide)
      · rintro _ ⟨⟩ - -
        decide
  | blocked => exact .steady rfl (.of_same hplaced rfl rfl rfl rfl)

theorem resumes_rewrites {status : Status} {changes : Changes} {operations : List OperationId}
    (hplaced : w.Placed) (h : Resumes w status changes) :
    Rewrites cfg P db w (.transition w status changes none operations) := by
  cases h with
  | provider name =>
      refine .steady rfl (.of_context hplaced ⟨rfl, rfl, rfl, Or.inl rfl⟩ (Or.inr (Or.inl rfl)) rfl (Or.inl rfl)
        (Or.inl rfl) ?_ ?_ ?_ ?_)
      all_goals exact fun _ hnone => nomatch hnone
  | limit =>
      refine .steady rfl (.of_context hplaced ⟨rfl, rfl, rfl, Or.inr rfl⟩ (Or.inr (Or.inl rfl)) rfl (Or.inl rfl)
        (Or.inr fun h => by cases h) ?_ ?_ ?_ ?_)
      all_goals exact fun _ hnone => nomatch hnone
  | recovered | retried | stopped | waits => exact .steady rfl (.of_same hplaced rfl rfl rfl rfl)

theorem promoted_rewrites {w₀ : Work} {changes : Changes} (hplaced : w.Placed) (h : Promotes w₀ changes)
    (halone : changes.context ≠ none → P.alone) (hlater : Work.Later w₀ w) (hplanned : w.planned = w₀.planned) :
    Rewrites cfg P db w (.transition w .running changes none []) := by
  have hmoves : ∀ phase ∈ taskPhases, w.Steady P
      (DB.changed .running { phase := some phase, context := some w.context } w) := by
    intro phase hphase
    have hnone : phase ∉ [.classify, .diagnose] ∧ phase ∉ planPhases ∧ phase ≠ .readme := by
      simp only [taskPhases, List.mem_cons, List.not_mem_nil, or_false] at hphase
      rcases hphase with rfl | rfl | rfl | rfl | rfl | rfl | rfl <;> decide
    refine .of_context hplaced (.refl _) (Or.inr (Or.inl rfl)) rfl (Or.inl rfl) (Or.inl rfl) ?_ ?_ ?_ ?_
    · rintro _ ⟨⟩ -
      exact hnone.1
    · rintro _ ⟨⟩ h
      exact absurd h hnone.2.1
    · rintro _ ⟨⟩ - - h
      exact absurd h hnone.2.2
    · rintro _ ⟨⟩ - -
      exact hphase
  cases h with
  | proof => exact .steady rfl (hmoves .verify (by decide))
  | delegated => exact .steady rfl (hmoves .implement (by decide))
  | task c parent limit id required htask hfix =>
      refine .promoted (halone fun h => by cases h) (hlater.mode.trans hfix) ?_
      rw [hplanned]
      exact htask

/-- What an operator's decision does to a row. -/
theorem approve_rewrites {hashes : Tree} {chosen : Option (List Path × Candidate)} {call : Call}
    (hplaced : w.Placed) (h : approve w hashes chosen = .send call (.pure ())) :
    call.records = [w] ∧ Rewrites cfg P db w call := by
  unfold approve at h
  split at h
  · cases h
  · next gate hgate =>
      split at h
      · cases h
      · cases h
        refine ⟨rfl, .steady rfl (.of_context hplaced ⟨rfl, rfl, rfl, Or.inr rfl⟩ (Or.inr (Or.inr ⟨gate, hashes, rfl⟩))
          rfl (Or.inl rfl) (Or.inr fun h => by cases h) ?_ ?_ ?_ ?_)⟩
        all_goals exact fun _ hnone => nomatch hnone

theorem answer_rewrites {rejected pending : Bool} {call : Call} (hplaced : w.Placed)
    (hrejects : rejected = true → P.rejects) (h : answer w rejected pending = .send call (.pure ())) :
    call.records = [w] ∧ Rewrites cfg P db w call := by
  unfold answer at h
  split at h
  · cases h
  next hwaiting =>
  simp only [not_or, not_not] at hwaiting
  have hasks : ∀ next, (if pending = true then some Waiting.user else none) = some next → next = .user := by
    intro next hnext
    split at hnext
    · exact (Option.some.inj hnext).symm
    · cases hnext
  have hawaited : ∀ (context : Context), context.waitingFor = (if pending = true then some .user else none) →
      context.awaited = [] := by
    intro context hcontext
    rw [Context.awaited, hcontext]
    cases pending <;> rfl
  cases rejected with
  | false =>
      cases h
      refine ⟨rfl, .steady rfl (.of_context hplaced ⟨rfl, rfl, rfl, Or.inr (hawaited _ rfl)⟩ (Or.inr (Or.inl rfl)) rfl
        (Or.inl rfl) (Or.inr fun h => ?_) ?_ ?_ ?_ ?_)⟩
      · cases hasks _ h
      · rintro _ ⟨⟩
        exact hplaced.modes
      · rintro _ ⟨⟩
        exact id
      · rintro _ ⟨⟩ - himplement hreadme
        rw [himplement] at hreadme
        cases hreadme
      · rintro _ ⟨⟩ - h
        exact h.1
  | true =>
      -- The phase that asked for the approval, if the context names one.
      have hback : ∀ Q : Phase → Prop, (∀ back, w.context.approvalPhase = some back → Q back) → Q w.phase →
          Q (w.context.approvalPhase.getD w.phase) := by
        intro Q hsome hold
        cases hphase : w.context.approvalPhase with
        | none => exact hold
        | some back => exact hsome back hphase
      have hasked : ∀ back, w.context.approvalPhase = some back →
          back ∉ [.classify, .diagnose] ∧ back ≠ .readme := by
        intro back hphase
        have hmem := hplaced.approvalPhase back hphase
        simp only [approvalPhases, List.mem_cons, List.not_mem_nil, or_false] at hmem
        rcases hmem with rfl | rfl | rfl | rfl | rfl <;> decide
      cases h
      refine ⟨rfl, .steady rfl ⟨⟨rfl, rfl, rfl, Or.inr (hawaited _ rfl)⟩, Or.inl (hrejects rfl), rfl,
        ⟨hplaced.named, ?_, hplaced.finalizeReturn, ?_⟩, ?_, ?_, ?_⟩⟩
      · exact fun _ hnone => nomatch hnone
      · exact hback (fun next => w.mode = .run → next ∉ [.classify, .diagnose])
          (fun back hphase _ => (hasked back hphase).1) hplaced.modes
      · rintro (hplan | ⟨hpending, -⟩)
        · exact hback (fun next => next ∈ planPhases → w.Early)
            (fun back hphase hmem => Or.inr ⟨hwaiting.2, back, hphase, hmem⟩) Or.inl hplan
        · cases hasks _ hpending
      · intro _ himplement
        exact hback (fun next => next = .readme → pendingTasks w.context = [])
          (fun back hphase h => absurd h (hasked back hphase).2) fun h => by
            rw [himplement] at h
            cases h
      · intro _ h
        refine ⟨hback (· ∈ taskPhases) (fun back hphase => h.2 back (Context.mem_returns.mpr (Or.inl hphase))) h.1,
          fun back hmem => h.2 back ?_⟩
        rcases Context.mem_returns.mp hmem with hnone | hfinal
        · cases hnone
        · exact Context.mem_returns.mpr (Or.inr hfinal)

/-- What the completion of a child does to the row of its parent. -/
theorem childDone_rewrites {child : Work} {candidate : Except ControlError Candidate} {call : Call}
    (hstatus : w.status = .waiting) (hwaiting : w.context.waitingFor = some .child)
    (hchild : w.context.child = some child.id) (hseen : db.Seen child) (hdone : child.status = .completed)
    (h : childDone candidate w child = .send call (.pure ())) :
    call.records = [w] ∧ Rewrites cfg P db w call := by
  unfold childDone at h
  rw [hdone] at h
  cases candidate with
  | error e => cases h
  | ok candidate =>
      cases htasks : doneWith w child with
      | error e =>
          rw [htasks] at h
          cases h
      | ok tasks =>
          rw [htasks] at h
          cases h
          exact ⟨rfl, .joined hstatus hwaiting hchild hseen hdone htasks⟩

theorem childrenDone_rewrites {children : List Work} {candidate : Except ControlError Candidate} {call : Call}
    (hstatus : w.status = .waiting) (hwaiting : w.context.waitingFor = some .children)
    (hdone : ∀ child ∈ children, db.Seen child ∧ child.status = .completed)
    (hsub : (children.map (·.id)).Sublist w.context.children)
    (h : childrenDone candidate w children = .send call (.pure ())) :
    call.records = [w] ∧ Rewrites cfg P db w call := by
  have hall : children.all (·.status == .completed) = true :=
    List.all_eq_true.mpr fun child hmem => by simpa using (hdone child hmem).2
  unfold childrenDone at h
  rw [if_pos hall] at h
  cases htasks : children.mapM finishedTask with
  | error e =>
      rw [htasks] at h
      cases h
  | ok tasks =>
      rw [htasks] at h
      cases candidate with
      | error e => cases h
      | ok candidate =>
          cases h
          exact ⟨rfl, .gathered hstatus hwaiting hdone hsub htasks⟩

/-- A call of the engine rewrites the row of its record in one of these ways. -/
theorem EngineCall.rewrites {call : Call} (h : EngineCall cfg P db call) {record : Work}
    (hrecord : record ∈ call.records) (hadmits : call.Admits record) : Rewrites cfg P db record call := by
  cases h with
  | ledger hledger =>
      cases call <;> first | exact absurd hadmits id | cases hledger
  | root => exact absurd hrecord List.not_mem_nil
  | step hw hrun _ hc hstep hrecords halone =>
      rw [hrecords] at hrecord
      obtain rfl := List.mem_singleton.mp hrecord
      exact step_rewrites hrun hw.1 hc halone hstep call rfl hrecords
  | runs hw | readied hw | linked hw | cancelled hw =>
      obtain rfl := List.mem_singleton.mp hrecord
      exact .steady rfl (.of_same hw.1 rfl rfl rfl rfl)
  | accepted hw hrun hphase =>
      obtain rfl := List.mem_singleton.mp hrecord
      have hforeign : record.phase ∉ taskPhases := by
        rw [hphase]
        decide
      exact advances hw.1 ⟨rfl, rfl, rfl, Or.inl rfl⟩ rfl rfl (Or.inl rfl) rfl (Or.inl (by decide))
        fun h => absurd h hforeign
  | awaits hw _ hphase =>
      obtain rfl := List.mem_singleton.mp hrecord
      exact .awaits hphase
  | promoted hchanges halone hlater hplanned hw =>
      obtain rfl := List.mem_singleton.mp hrecord
      exact promoted_rewrites hw.1 hchanges halone hlater hplanned
  | resumes hw hresumes =>
      obtain rfl := List.mem_singleton.mp hrecord
      exact resumes_rewrites hw.1 hresumes
  | fails hw hfails =>
      obtain rfl := List.mem_singleton.mp hrecord
      exact fails_rewrites hw.1 hfails
  | joined hw hstatus hwaiting hchild hseen hdone hcall =>
      obtain ⟨hrecords, hrewrites⟩ := childDone_rewrites hstatus hwaiting hchild hseen hdone hcall
      rw [hrecords] at hrecord
      obtain rfl := List.mem_singleton.mp hrecord
      exact hrewrites
  | gathered hw hstatus hwaiting hdone hsub hcall =>
      obtain ⟨hrecords, hrewrites⟩ := childrenDone_rewrites hstatus hwaiting hdone hsub hcall
      rw [hrecords] at hrecord
      obtain rfl := List.mem_singleton.mp hrecord
      exact hrewrites
  | approved hw hcall =>
      obtain ⟨hrecords, hrewrites⟩ := approve_rewrites hw.1 hcall
      rw [hrecords] at hrecord
      obtain rfl := List.mem_singleton.mp hrecord
      exact hrewrites
  | answered hw hrejects hcall =>
      obtain ⟨hrecords, hrewrites⟩ := answer_rewrites hw.1 hrejects hcall
      rw [hrecords] at hrecord
      obtain rfl := List.mem_singleton.mp hrecord
      exact hrewrites
  | generated hw hcall =>
      unfold generate at hcall
      split at hcall
      · cases hcall
      · cases hcall
        exact absurd hadmits id
  | presented hw _ _ =>
      obtain rfl := List.mem_singleton.mp hrecord
      refine .steady rfl (.of_context hw.1 ⟨rfl, rfl, rfl, Or.inl rfl⟩ (Or.inr (Or.inl rfl)) rfl (Or.inl rfl)
        (Or.inl rfl) ?_ ?_ ?_ ?_)
      all_goals exact fun _ hnone => nomatch hnone
  | archived hw hterminal hpermits =>
      obtain rfl := List.mem_singleton.mp hrecord
      exact .archived hterminal hpermits
  | restarted hw _ =>
      obtain rfl := List.mem_singleton.mp hrecord
      refine .steady rfl (.of_context hw.1 ⟨rfl, rfl, rfl, Or.inl rfl⟩ (Or.inr (Or.inl rfl)) rfl (Or.inl rfl)
        (Or.inl rfl) ?_ ?_ ?_ ?_)
      all_goals exact fun _ hnone => nomatch hnone

/-- The phase of a parent once its child has completed. -/
theorem joined_phase (hrun : w.mode = .run) :
    (if w.mode = .collab ∨ w.mode = .fix ∧ w.phase = .classify then .acceptance else w.phase) = w.phase := by
  rw [if_neg]
  rw [hrun]
  rintro (h | ⟨h, -⟩) <;> cases h

/-- A rewritten row is placed, and has the planned task it had. -/
theorem Rewrites.placed {call : Call} (h : Rewrites cfg P db w call) (hplaced : w.Placed) :
    (call.rewritten w).Placed ∧ (call.rewritten w).planned = w.planned := by
  cases h with
  | steady _ hsteady => exact ⟨hsteady.placed, hsteady.planned⟩
  | planned _ _ _ hinputs =>
      refine ⟨⟨fun task htask => ?_, hplaced.approvalPhase, hplaced.finalizeReturn, fun _ => ?_⟩, hinputs⟩
      · exact hinputs.trans (hplaced.named task htask)
      · show Phase.providerResearch ∉ _
        decide
  | single | awaits | batch | gathered =>
      exact ⟨⟨hplaced.named, hplaced.approvalPhase, hplaced.finalizeReturn, hplaced.modes⟩, rfl⟩
  | joined =>
      refine ⟨⟨hplaced.named, hplaced.approvalPhase, hplaced.finalizeReturn, fun hrun => ?_⟩, rfl⟩
      have hmode : w.mode = .run := hrun
      show (if w.mode = .collab ∨ w.mode = .fix ∧ w.phase = .classify then .acceptance else w.phase) ∉ _
      rw [joined_phase hmode]
      exact hplaced.modes hmode
  | promoted _ hfix hplanned =>
      refine ⟨⟨fun id hid => ?_, fun _ hnone => (Option.some_ne_none _ hnone.symm).elim, Or.inl rfl, ?_⟩, rfl⟩
      · rw [← Option.some.inj hid]
        exact hplanned
      · intro hrun
        have hmode : w.mode = .run := hrun
        rw [hfix] at hmode
        cases hmode
  | archived =>
      exact ⟨⟨fun _ hnone => (Option.some_ne_none _ hnone.symm).elim,
        fun _ hnone => (Option.some_ne_none _ hnone.symm).elim, Or.inl rfl, hplaced.modes⟩, rfl⟩

/-! ### What the calls add -/

/-- A new row: a planned child that is named at once, or a row without context, which is no planned child
unless tasks may start by themselves. -/
structure Work.New (P : Permits) (w : Work) : Prop where
  placed : w.Placed
  status : w.status = .ready
  context : w.context = {} ∧ (w.parent = none ∨ w.planned = none ∨ P.alone) ∨
    ∃ task, w.context = { taskId := some task } ∧ w.planned = some task ∧ w.phase = .implement ∧ w.mode = .fix

theorem newWork_placed {c : Contract} {parent : Option String} {phase : Phase} {limit : Nat}
    (hmodes : c.mode = .run → phase ∉ [.classify, .diagnose]) : (DB.newWork c parent phase limit).Placed :=
  ⟨fun _ hnone => (Option.some_ne_none _ hnone.symm).elim, fun _ hnone => (Option.some_ne_none _ hnone.symm).elim, Or.inl rfl, hmodes⟩

theorem newWork_new {c : Contract} {parent : Option String} {phase : Phase} {limit : Nat}
    (hmodes : c.mode = .run → phase ∉ [.classify, .diagnose])
    (h : parent = none ∨ c.inputs.plannedTask = none ∨ P.alone) : (DB.newWork c parent phase limit).New P :=
  ⟨newWork_placed hmodes, rfl, Or.inl ⟨rfl, h⟩⟩

theorem childPhase_run {mode : Mode} (h : mode = .run) : DB.childPhase mode ∉ [.classify, .diagnose] := by
  rw [h]
  decide

/-- The rows that a call adds which rewrites the row of its record. -/
theorem Rewrites.adds {call : Call} (h : Rewrites cfg P db w call) {before : DB} {row : Work}
    (hadds : call.Adds before row) : row.New P := by
  cases h with
  | steady hquiet =>
      rw [Call.creates_of_adds hadds] at hquiet
      cases hquiet
  | single _ hwhy =>
      obtain ⟨pc, c, -, hbuild, rfl⟩ := hadds
      obtain ⟨-, -, hmode, -, -, -, -, -, hinputs, -⟩ := Contract.build_eq_ok hbuild
      refine newWork_new (fun hrun => childPhase_run (hmode.symm.trans hrun)) (Or.inr ?_)
      rcases hwhy with ⟨-, rfl⟩ | ⟨halone, -⟩
      · left
        rw [hinputs]
      · exact Or.inr halone
  | batch =>
      obtain ⟨pc, c, work, task, checks, -, -, -, hbuild, rfl⟩ := hadds
      obtain ⟨-, -, hmode, -, -, -, -, -, hinputs, -⟩ := Contract.build_eq_ok hbuild
      have hplanned : (DB.taskWork c w.id task).planned = some task.taskId := by
        show c.inputs.plannedTask = _
        rw [hinputs]
      refine ⟨⟨fun id hid => ?_, fun _ hnone => (Option.some_ne_none _ hnone.symm).elim, Or.inl rfl, fun _ => ?_⟩,
        rfl, Or.inr ⟨task.taskId, rfl, hplanned, rfl, hmode⟩⟩
      · rw [hplanned]
        exact hid
      · show Phase.implement ∉ _
        decide
  | _ => exact absurd hadds id

/-- A call of the engine that adds a row adds a root or a child without a planned task, or rewrites the row
of its record too. -/
theorem EngineCall.added {call : Call} (h : EngineCall cfg P db call) {before : DB} {row : Work}
    (hadds : call.Adds before row) :
    row.New P ∧ (row.parent = none ∨ row.planned = none) ∨
      ∃ record, db.Seen record ∧ call.records = [record] ∧ Rewrites cfg P db record call := by
  cases h with
  | ledger hledger =>
      cases call <;> first | exact absurd hadds id | cases hledger
  | root =>
      obtain ⟨c, hbuild, rfl⟩ := hadds
      obtain ⟨-, -, hmode, -⟩ := Contract.build_eq_ok hbuild
      refine Or.inl ⟨newWork_new (fun hrun => ?_) (Or.inl rfl), Or.inl rfl⟩
      rw [hmode.symm.trans hrun]
      decide
  | step hw hrun _ hc hstep hrecords halone =>
      exact Or.inr ⟨_, hw, hrecords, step_rewrites hrun hw.1 hc halone hstep call rfl hrecords⟩
  | generated hw hcall =>
      unfold generate at hcall
      split at hcall
      · cases hcall
      · cases hcall
        obtain ⟨pc, c, -, hbuild, rfl⟩ := hadds
        obtain ⟨-, -, -, -, -, -, -, -, hinputs, -⟩ := Contract.build_eq_ok hbuild
        have hnone : c.inputs.plannedTask = none := by rw [hinputs]
        exact Or.inl ⟨newWork_new (fun _ => by decide) (Or.inr (Or.inl hnone)), Or.inr hnone⟩
  | joined hw hstatus hwaiting hchild hseen hdone hcall =>
      obtain ⟨hrecords, hrewrites⟩ := childDone_rewrites hstatus hwaiting hchild hseen hdone hcall
      exact Or.inr ⟨_, hw, hrecords, hrewrites⟩
  | gathered hw hstatus hwaiting hdone hsub hcall =>
      obtain ⟨hrecords, hrewrites⟩ := childrenDone_rewrites hstatus hwaiting hdone hsub hcall
      exact Or.inr ⟨_, hw, hrecords, hrewrites⟩
  | approved hw hcall =>
      obtain ⟨hrecords, hrewrites⟩ := approve_rewrites hw.1 hcall
      exact Or.inr ⟨_, hw, hrecords, hrewrites⟩
  | answered hw hrejects hcall =>
      obtain ⟨hrecords, hrewrites⟩ := answer_rewrites hw.1 hrejects hcall
      exact Or.inr ⟨_, hw, hrecords, hrewrites⟩
  | _ => exact absurd hadds id

/-- The rows that a call of the engine adds. -/
theorem EngineCall.adds {call : Call} (h : EngineCall cfg P db call) {before : DB} {row : Work}
    (hadds : call.Adds before row) : row.New P := by
  rcases h.added hadds with ⟨hnew, -⟩ | ⟨record, -, -, hrewrites⟩
  · exact hnew
  · exact hrewrites.adds hadds

end

end AutoAgents
