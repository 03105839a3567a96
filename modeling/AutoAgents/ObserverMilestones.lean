import AutoAgents.EngineTasks

/-! What the observer counts as progress. Milestones are read off the work items, their approvals and the
event log; cleanup shortens the log of finished work, and that is where progress can be lost. -/

namespace AutoAgents

open Base Base.Table Program
open Git (Path Commit Tree)

/-! ### Milestones -/

inductive Milestone
  | completed (work : String) (contract : ContractId)
  | approved (work : String) (gate : Gate) (hashes : Tree)
  | verified (event : Event)

/-- The milestones of one work item. -/
def Work.milestones (w : Work) : List Milestone :=
  (if w.status = .completed then [.completed w.id w.contract] else []) ++
    w.context.approvals.map fun entry => .approved w.id entry.1 entry.2

namespace DB

/-- A `verified_progress` event of a work item of the workflow. -/
def verifies (db : DB) (workflow : String) (e : Event) : Bool :=
  e.data == .named "verified_progress" && (db.works.find e.work).any (·.workflow == workflow)

/-- `milestones`. -/
def milestones (db : DB) (workflow : String) : List Milestone :=
  (db.works.rows.filter (·.workflow == workflow)).flatMap Work.milestones ++
    (db.events.filter (db.verifies workflow)).map .verified

/-- `progress_seq`. -/
def progressSeq (db : DB) (workflow : String) : Nat := (db.milestones workflow).length

end DB

/-- A step as the observer records it. -/
structure StepRow where
  stepId : String
  progressSeq : Nat
  counted : Bool := true

structure Observation where
  waitingFor : Bool := false
  progressSeq : Nat := 0
  steps : List StepRow := []

/-- The steps that `cycle` counts. -/
def Observation.current (o : Observation) : List StepRow :=
  o.steps.filter fun row => row.counted && row.progressSeq == o.progressSeq

/-- `cycle`: one step is repeated without progress. -/
def cycle (o : Observation) (limit : Nat) : Bool :=
  !o.waitingFor && o.current.any fun row => decide (limit ≤ o.current.countP (·.stepId == row.stepId))

/-- `business`: a repaired job that fails again has made no progress since the fault. -/
def lacksProgress (sequence faultProgressSeq : Nat) : Bool := sequence ≤ faultProgressSeq

/-- Steps recorded under an older value are not counted. -/
theorem cycle_recent {o : Observation} {limit n : Nat} (h : n ≤ o.progressSeq) :
    cycle { o with steps := o.steps.filter fun row => decide (n ≤ row.progressSeq) } limit = cycle o limit := by
  have hcurrent : Observation.current { o with steps := o.steps.filter fun row => decide (n ≤ row.progressSeq) } =
      o.current := by
    simp only [Observation.current, List.filter_filter]
    refine List.filter_congr fun row _ => ?_
    by_cases hrow : row.progressSeq = o.progressSeq
    · simp [hrow, h]
    · simp [hrow]
  simp only [cycle, hcurrent]

/-! ### The count -/

section

variable {cfg : Config} {P : Permits} {db db' : DB} {call : Call} {w w' : Work} {workflow : String}

/-- What a work item adds to the progress of a workflow. -/
def Work.weight (workflow : String) (w : Work) : Nat :=
  if w.workflow = workflow then w.milestones.length else 0

theorem Work.milestones_length (w : Work) :
    w.milestones.length = (if w.status = .completed then 1 else 0) + w.context.approvals.length := by
  rw [milestones, List.length_append, List.length_map]
  split <;> rfl

theorem DB.progressSeq_eq (db : DB) (workflow : String) :
    db.progressSeq workflow = db.works.total (Work.weight workflow) + db.events.countP (db.verifies workflow) := by
  have hworks : ∀ rows : List Work, ((rows.filter (·.workflow == workflow)).flatMap Work.milestones).length =
      (rows.map (Work.weight workflow)).sum := by
    intro rows
    induction rows with
    | nil => rfl
    | cons w rows ih =>
        by_cases hw : w.workflow = workflow
        · simp [Work.weight, hw, ih]
        · simp [Work.weight, hw, ih]
  rw [progressSeq, milestones, List.length_append, hworks, List.length_map, ← List.countP_eq_length_filter]
  rfl

/-! ### The event log -/

theorem DB.transitionRow_events {record : Work} {status : Status} {changes : Changes}
    (h : db.transitionRow record status changes = .ok db') :
    ∃ before phase, db'.events = db.events ++ [⟨record.id, .transition before status phase⟩] := by
  obtain ⟨current, -, -, -, -, rfl⟩ := DB.transitionRow_ok h
  exact ⟨_, _, rfl⟩

theorem DB.consumeAll_events {ids : List OperationId} (h : ids.foldlM DB.consume db = .ok db') :
    db'.events = db.events := by
  refine foldlM_keeps (fun d => d.events = db.events) (fun d _ d' hd hstep => ?_) rfl h
  obtain ⟨op, -, -, rfl⟩ := DB.consume_ok hstep
  exact hd

theorem DB.insertWork_events {c : Contract} {parent : Option String} {phase : Phase} {limit : Nat}
    (h : db.insertWork c parent phase limit = .ok db') : db'.events = db.events := by
  obtain ⟨-, -, rfl⟩ := DB.insertWork_ok h
  rfl

theorem DB.batchTasks_events {parent : Work} {pc : Contract} {source : Commit} {tasks : List (String × Task)}
    (h : tasks.foldlM (DB.batchTask parent pc source) db = .ok db') : db'.events = db.events := by
  refine foldlM_keeps (fun d => d.events = db.events) (fun d item d' hd hstep => ?_) rfl h
  simp only [DB.batchTask, bind_ok, pure_ok] at hstep
  obtain ⟨checks, -, c, -, inserted, hins, rfl⟩ := hstep
  exact (DB.insertWork_events hins).trans hd

/-- Only `collect` takes events out of the log. -/
theorem Call.exec_events (h : call.exec db = .ok db') :
    (∃ longResult longInputs, call = .collect longResult longInputs) ∨ ∃ news, db'.events = db.events ++ news := by
  have hsame : db'.events = db.events → ∃ news, db'.events = db.events ++ news :=
    fun heq => ⟨[], by rw [heq, List.append_nil]⟩
  cases call with
  | collect longResult longInputs => exact Or.inl ⟨_, _, rfl⟩
  | createWorkflow =>
      simp only [Call.exec, DB.createWorkflow, guard_ok, bind_ok] at h
      obtain ⟨-, c, -, h⟩ := h
      split at h
      · cases h
      · have hevents := DB.insertWork_events h
        exact Or.inr (hsame hevents)
  | child =>
      simp only [Call.exec, DB.child, bind_ok] at h
      obtain ⟨pc, -, c, -, inserted, hins, moved, hmove, hconsume⟩ := h
      obtain ⟨before, phase, hevents⟩ := DB.transitionRow_events hmove
      exact Or.inr ⟨_, by rw [DB.consumeAll_events hconsume, hevents, DB.insertWork_events hins]⟩
  | batch =>
      simp only [Call.exec, DB.batch, bind_ok] at h
      obtain ⟨pc, -, mid, hfold, hmove⟩ := h
      obtain ⟨before, phase, hevents⟩ := DB.transitionRow_events hmove
      exact Or.inr ⟨_, by rw [hevents, DB.batchTasks_events hfold]⟩
  | addon =>
      simp only [Call.exec, DB.addon, bind_ok] at h
      obtain ⟨pc, -, c, -, hins⟩ := h
      exact Or.inr (hsame (DB.insertWork_events hins))
  | transition =>
      obtain ⟨mid, hmove, hconsume⟩ := bind_ok.mp h
      obtain ⟨before, phase, hevents⟩ := DB.transitionRow_events hmove
      exact Or.inr ⟨_, by rw [DB.consumeAll_events hconsume, hevents]⟩
  | bindContract =>
      obtain ⟨-, -, mid, -, -, -, -, -, -, -, -, -, -, -, -, rfl, hconsume⟩ := DB.bindContract_ok h
      exact Or.inr ⟨_, DB.consumeAll_events hconsume⟩
  | reserve =>
      rcases Call.reserve_cases h with hnew | rfl
      · obtain ⟨-, rfl⟩ := hnew.writes
        exact Or.inr ⟨_, rfl⟩
      · exact Or.inr (hsame rfl)
  | settle =>
      obtain ⟨-, row, -, -, rfl⟩ := DB.settle_ok h
      exact Or.inr ⟨_, rfl⟩
  | deriveReceipt =>
      obtain ⟨row, -, -, -, rfl⟩ := DB.deriveReceipt_ok h
      exact Or.inr (hsame rfl)
  | consume =>
      obtain ⟨op, -, -, rfl⟩ := DB.consume_ok h
      exact Or.inr (hsame rfl)
  | event | orphanCalls | setUnassigned =>
      cases h
      first
        | exact Or.inr (hsame rfl)
        | exact Or.inr ⟨_, rfl⟩

/-! ### What cleanup drops -/

/-- An event that `collect` deletes: of terminal work, with 64 later events of the same work. -/
def Event.Dropped (terminal : String → Bool) (e : Event) (later : List Event) : Prop :=
  terminal e.work = true ∧ 64 ≤ later.countP (·.work == e.work)

theorem DB.recentEvents_dropped {terminal : String → Bool} {e : Event} {later : List Event}
    (h : e.Dropped terminal later) : DB.recentEvents terminal (e :: later) = DB.recentEvents terminal later :=
  if_pos (by simpa [Event.Dropped] using h)

theorem DB.recentEvents_kept {terminal : String → Bool} {e : Event} {later : List Event}
    (h : ¬ e.Dropped terminal later) :
    DB.recentEvents terminal (e :: later) = e :: DB.recentEvents terminal later :=
  if_neg (by simpa [Event.Dropped] using h)

theorem DB.recentEvents_countP {terminal : String → Bool} {p : Event → Bool} (events : List Event) :
    (DB.recentEvents terminal events).countP p ≤ events.countP p := by
  induction events with
  | nil => exact Nat.le_refl _
  | cons e later ih =>
      by_cases hdropped : e.Dropped terminal later
      · rw [recentEvents_dropped hdropped, List.countP_cons]
        omega
      · rw [recentEvents_kept hdropped, List.countP_cons, List.countP_cons]
        omega

/-- The log keeps the count of its events of one kind exactly when it drops none of them. -/
theorem DB.recentEvents_keeps {terminal : String → Bool} {p : Event → Bool} (events : List Event) :
    events.countP p ≤ (DB.recentEvents terminal events).countP p ↔
      ∀ before e later, events = before ++ e :: later → p e = true → ¬ e.Dropped terminal later := by
  induction events with
  | nil =>
      refine ⟨fun _ before e later h => ?_, fun _ => Nat.le_refl _⟩
      exact absurd h (by simp)
  | cons first rest ih =>
      have hrest : (DB.recentEvents terminal rest).countP p ≤ rest.countP p := recentEvents_countP rest
      have hsplit : (∀ before e later, first :: rest = before ++ e :: later → p e = true → ¬ e.Dropped terminal later) ↔
          (p first = true → ¬ first.Dropped terminal rest) ∧
            ∀ before e later, rest = before ++ e :: later → p e = true → ¬ e.Dropped terminal later := by
        constructor
        · intro hall
          exact ⟨hall [] first rest rfl, fun before e later hl => hall (first :: before) e later (by rw [hl]; rfl)⟩
        · rintro ⟨hfirst, hlater⟩ before e later hl
          cases before with
          | nil =>
              obtain ⟨rfl, rfl⟩ := List.cons.inj hl
              exact hfirst
          | cons b before => exact hlater before e later (List.cons.inj hl).2
      rw [hsplit, ← ih]
      by_cases hdropped : first.Dropped terminal rest
      · rw [recentEvents_dropped hdropped, List.countP_cons]
        by_cases hp : p first = true
        · simp only [hp, if_true, hdropped]
          constructor
          · intro hle
            omega
          · rintro ⟨hcontra, -⟩
            exact absurd trivial (hcontra trivial)
        · rw [if_neg hp, Nat.add_zero]
          exact ⟨fun hle => ⟨fun hcontra => absurd hcontra hp, hle⟩, fun hboth => hboth.2⟩
      · rw [recentEvents_kept hdropped, List.countP_cons, List.countP_cons]
        simp only [hdropped, not_false_eq_true, implies_true, true_and]
        omega

/-! ### Rows -/

/-- Only a running work item is bound to a contract. -/
theorem EngineCall.binds_running {c : Contract} {phase : Option Phase} {context : Option Context}
    {operation : Option OperationId} (h : EngineCall cfg P db (.bindContract w c phase context operation)) :
    w.status = .running := by
  cases h with
  | ledger hledger => cases hledger
  | step _ hrun _ _ _ hrecords =>
      rw [List.singleton_inj.mp hrecords]
      exact hrun
  | @joined v child _ candidate _ _ _ _ _ hdone hcall =>
      unfold childDone at hcall
      rw [hdone] at hcall
      cases candidate with
      | error e => cases hcall
      | ok candidate =>
          cases htasks : doneWith v child with
          | error e =>
              rw [htasks] at hcall
              cases hcall
          | ok tasks =>
              rw [htasks] at hcall
              cases hcall
  | @gathered v children _ candidate _ _ _ hdone _ hcall =>
      have hall : children.all (·.status == .completed) = true :=
        List.all_eq_true.mpr fun child hmem => by simpa using (hdone child hmem).2
      unfold childrenDone at hcall
      rw [if_pos hall] at hcall
      cases htasks : children.mapM finishedTask with
      | error e =>
          rw [htasks] at hcall
          cases hcall
      | ok tasks =>
          rw [htasks] at hcall
          cases candidate <;> cases hcall
  | approved _ hcall =>
      unfold approve at hcall
      split at hcall
      · cases hcall
      · split at hcall <;> cases hcall
  | answered _ _ hcall =>
      unfold answer at hcall
      split at hcall
      · cases hcall
      · cases hcall
  | generated _ hcall =>
      unfold generate at hcall
      split at hcall <;> cases hcall

/-- Completed work stays completed. -/
theorem EngineCall.completed (h : EngineCall cfg P db call) {record : Work} (hrecord : record ∈ call.records)
    (hadmits : call.Admits record) (hdone : record.status = .completed) :
    (call.rewritten record).status = .completed := by
  cases call with
  | transition w status changes operation operations =>
      rcases hadmits with hsame | hedge
      · exact hsame.trans hdone
      · rw [hdone] at hedge
        exact absurd hedge List.not_mem_nil
  | child | batch =>
      rw [Call.Admits, hdone] at hadmits
      exact absurd hadmits (by decide)
  | bindContract w c phase context operation =>
      obtain rfl := List.mem_singleton.mp hrecord
      rw [h.binds_running] at hdone
      cases hdone
  | _ => exact hdone

/-- The approvals of a context are of different gates. -/
def Work.Gated (w : Work) : Prop := (w.context.approvals.map (·.1)).Nodup

/-- An approval adds a gate or renews one. -/
theorem Context.Approves.keys {c c' : Context} (h : c.Approves c') (hc : (c.approvals.map (·.1)).Nodup) :
    (c'.approvals.map (·.1)).Nodup ∧ c.approvals.length ≤ c'.approvals.length := by
  rcases h with hsame | ⟨gate, hashes, hrenewed⟩
  · rw [hsame]
    exact ⟨hc, Nat.le_refl _⟩
  · have hothers : ((c.approvals.filter fun entry => entry.1 != gate).map (·.1)).Nodup :=
      (List.filter_sublist.map _).nodup hc
    have hlength := List.length_eq_countP_add_countP (l := c.approvals) fun entry => entry.1 != gate
    have honce : c.approvals.countP (fun entry => decide ¬ (entry.1 != gate) = true) ≤ 1 := by
      have hcount := List.nodup_iff_count_le_one.mp hc gate
      rw [List.count, List.countP_map] at hcount
      refine Nat.le_trans (List.countP_mono_left fun entry _ hentry => ?_) hcount
      simpa using hentry
    rw [hrenewed, List.map_cons, List.length_cons, ← List.countP_eq_length_filter]
    refine ⟨List.nodup_cons.mpr ⟨fun hmem => ?_, hothers⟩, by omega⟩
    obtain ⟨entry, hentry, heq⟩ := List.mem_map.mp hmem
    have hne := (List.mem_filter.mp hentry).2
    rw [heq] at hne
    simp at hne

/-- Engine steps, approvals, completions and cleanups: no approval is taken back, and none discarded. -/
def progressPermits : Permits := ⟨True, False, fun _ => False⟩

/-- The start of a task replaces the context of a child that has approvals. -/
def Call.Restarts (workflow : String) : Call → Prop
  | .transition w .running changes _ _ => w.workflow = workflow ∧
      (∃ task, changes.context = some { taskId := some task }) ∧ w.context.approvals ≠ []
  | _ => False

/-- A row that is rewritten keeps its approvals, unless a start replaces them. -/
theorem Rewrites.gated (h : Rewrites cfg progressPermits db w call) (hw : w.Gated) :
    (call.rewritten w).Gated ∧
      (w.context.approvals.length ≤ (call.rewritten w).context.approvals.length ∨ call.Restarts w.workflow) := by
  cases h with
  | steady _ hsteady =>
      rcases hsteady.approvals with hrejects | happroves
      · exact hrejects.elim
      · exact ⟨(happroves.keys hw).1, Or.inl (happroves.keys hw).2⟩
  | planned | single | awaits | batch | joined | gathered => exact ⟨hw, Or.inl (Nat.le_refl _)⟩
  | @promoted task =>
      refine ⟨List.nodup_nil, ?_⟩
      by_cases hnone : w.context.approvals = []
      · exact Or.inl (by rw [hnone]; exact Nat.zero_le _)
      · exact Or.inr ⟨rfl, ⟨task, rfl⟩, hnone⟩
  | archived _ harchives => exact harchives.elim

theorem Work.weight_le (hworkflow : w'.workflow = w.workflow) (hdone : w.status = .completed → w'.status = .completed)
    (happrovals : w.context.approvals.length ≤ w'.context.approvals.length) :
    w.weight workflow ≤ w'.weight workflow := by
  unfold weight
  rw [hworkflow]
  split
  · rw [milestones_length, milestones_length]
    by_cases hcompleted : w.status = .completed
    · rw [if_pos hcompleted, if_pos (hdone hcompleted)]
      omega
    · rw [if_neg hcompleted]
      omega
  · exact Nat.le_refl _

theorem Call.rewritten_workflow (call : Call) (w : Work) : (call.rewritten w).workflow = w.workflow := by
  cases call with
  | bindContract work c nextPhase context operation => cases nextPhase <;> rfl
  | _ => rfl

/-- A call of the engine keeps the gates of each row apart. -/
theorem EngineCall.gated (h : EngineCall cfg progressPermits db call) (hgated : ∀ w ∈ db.works.rows, w.Gated)
    (hexec : call.exec db = .ok db') : ∀ w ∈ db'.works.rows, w.Gated := by
  intro w' hw'
  rcases (h.rows hexec).mem hw' with ⟨w, hw, -, hmoved⟩ | ⟨⟨-, hnew⟩, -⟩
  · have hold := hgated _ hw
    cases hmoved with
    | same | charged => exact hold
    | rewritten record n _ _ _ hrewrites => exact (hrewrites.gated hold).1
  · rcases hnew.context with ⟨hnone, -⟩ | ⟨task, hcontext, -⟩
    · rw [Work.Gated, hnone]
      exact List.nodup_nil
    · rw [Work.Gated, hcontext]
      exact List.nodup_nil

/-- It takes no milestone of the work items away, unless it starts a task anew. -/
theorem EngineCall.weights_le (h : EngineCall cfg progressPermits db call) (hgated : ∀ w ∈ db.works.rows, w.Gated)
    (hexec : call.exec db = .ok db') (hkeeps : ¬ call.Restarts workflow) :
    db.works.total (Work.weight workflow) ≤ db'.works.total (Work.weight workflow) := by
  refine (h.rows hexec).total_le fun w hw w' hmoved => ?_
  have hold := hgated _ hw
  cases hmoved with
  | same | charged => exact Nat.le_refl _
  | rewritten record n hrecord hadmits _ hrewrites =>
      show record.weight workflow ≤ (call.rewritten record).weight workflow
      by_cases hworkflow : record.workflow = workflow
      · refine Work.weight_le (call.rewritten_workflow record) (h.completed hrecord hadmits) ?_
        exact (hrewrites.gated hold).2.resolve_right (hworkflow ▸ hkeeps)
      · rw [Work.weight, if_neg hworkflow]
        exact Nat.zero_le _

/-! ### Calls and progress -/

/-- A work item that `collect` takes for finished. -/
def DB.finished (db : DB) (id : String) : Bool := (db.works.find id).any (·.status.terminal)

/-- A call that takes no milestone of the workflow away: no start replaces the context of a child with
approvals, and no cleanup drops a `verified_progress` event of the workflow. -/
def Call.KeepsMilestones (db : DB) (workflow : String) (call : Call) : Prop :=
  ¬ call.Restarts workflow ∧ ∀ longResult longInputs, call = .collect longResult longInputs →
    ∀ before e later, db.events = before ++ e :: later → db.verifies workflow e = true →
      ¬ e.Dropped db.finished later

theorem DB.verifies_later (hs : db.Since db') {e : Event} (h : db.verifies workflow e = true) :
    db'.verifies workflow e = true := by
  simp only [DB.verifies, Bool.and_eq_true] at h ⊢
  refine ⟨h.1, ?_⟩
  cases hrow : db.works.find e.work with
  | none =>
      rw [hrow] at h
      cases h.2
  | some row =>
      obtain ⟨row', hrow', hlater, -⟩ := hs e.work row hrow
      rw [hrow] at h
      rw [hrow']
      simpa [hlater.workflow] using h.2

/-- Progress under a cleanup. -/
theorem collect_progress {longResult longInputs : Operation → Bool} :
    db.progressSeq workflow ≤ (db.collect longResult longInputs).progressSeq workflow ↔
      ∀ before e later, db.events = before ++ e :: later → db.verifies workflow e = true →
        ¬ e.Dropped db.finished later := by
  rw [DB.progressSeq_eq, DB.progressSeq_eq, ← DB.recentEvents_keeps]
  exact Nat.add_le_add_iff_left

/-- The start of a task on a child with approvals loses them. -/
theorem restarts_progress (h : EngineCall cfg P db call) (hexec : call.exec db = .ok db')
    (hrestarts : call.Restarts workflow) : db'.progressSeq workflow < db.progressSeq workflow := by
  unfold Call.Restarts at hrestarts
  split at hrestarts
  · next w changes operation operations =>
      obtain ⟨hworkflow, ⟨task, hcontext⟩, happrovals⟩ := hrestarts
      have hseen := h.seen rfl w List.mem_cons_self
      obtain ⟨mid, hmove, hconsume⟩ := bind_ok.mp hexec
      obtain ⟨before, phase, hevents⟩ := DB.transitionRow_events hmove
      obtain ⟨current, hcurrent, hrev, hadmits, -, rfl⟩ := DB.transitionRow_ok hmove
      have hsame := hseen.current hcurrent hrev
      have hworks : db'.works = db.works.modify w.id (DB.changed .running changes) fun _ => rfl :=
        DB.consumeAll_works hconsume
      -- Its milestones are gone, and it was not completed before.
      have hafter : (DB.changed .running changes current).weight workflow = 0 := by
        simp [Work.weight, Work.milestones_length, DB.changed, hcontext]
      have hbefore : 0 < current.weight workflow := by
        have hmember : current.workflow = workflow := by rw [hsame]; exact hworkflow
        rw [Work.weight, if_pos hmember, Work.milestones_length]
        have hlength := List.length_pos_of_ne_nil happrovals
        rw [hsame]
        show 0 < _ + w.context.approvals.length
        omega
      have htotal := total_modify db.works (DB.changed .running changes) (fun _ => rfl) (Work.weight workflow) hcurrent
      have hverifies : ∀ e, db'.verifies workflow e = db.verifies workflow e := by
        intro e
        have hfind := find_modify db.works w.id (DB.changed .running changes) (fun _ => rfl) e.work
        simp only [DB.verifies, hworks, hfind]
        by_cases hid : e.work = w.id
        · rw [if_pos hid]
          cases db.works.find e.work <;> rfl
        · rw [if_neg hid]
      have hlog : db'.events.countP (db'.verifies workflow) = db.events.countP (db.verifies workflow) := by
        rw [DB.consumeAll_events hconsume, hevents, List.countP_append, funext hverifies]
        rfl
      rw [DB.progressSeq_eq, DB.progressSeq_eq, hlog, hworks]
      have hlost : (db.works.modify w.id (DB.changed .running changes) fun _ => rfl).total (Work.weight workflow) +
          current.weight workflow = db.works.total (Work.weight workflow) + 0 := by
        rw [← hafter]
        exact htotal
      omega
  · exact hrestarts.elim

/-- A call of the engine keeps the progress of a workflow exactly when it takes no milestone away. -/
theorem EngineCall.progress_iff (h : EngineCall cfg progressPermits db call) (hholds : placedLaw.law.holds db)
    (hgated : ∀ w ∈ db.works.rows, w.Gated) (hexec : call.exec db = .ok db') :
    db.progressSeq workflow ≤ db'.progressSeq workflow ↔ call.KeepsMilestones db workflow := by
  by_cases hrestarts : call.Restarts workflow
  · have hless := restarts_progress h hexec hrestarts
    exact ⟨fun hle => absurd hle (by omega), fun hkeeps => absurd hrestarts hkeeps.1⟩
  by_cases hcollect : ∃ longResult longInputs, call = .collect longResult longInputs
  · obtain ⟨longResult, longInputs, rfl⟩ := hcollect
    cases hexec
    rw [collect_progress]
    constructor
    · intro hkept
      exact ⟨hrestarts, fun _ _ _ => hkept⟩
    · intro hkeeps
      exact hkeeps.2 longResult longInputs rfl
  · have hworks := h.weights_le hgated hexec hrestarts
    obtain ⟨news, hevents⟩ := (Call.exec_events hexec).resolve_left hcollect
    have hs : db.Since db' := ((engineGuard cfg progressPermits).keeps hholds h hexec).2
    have hlog : db.events.countP (db.verifies workflow) ≤ db'.events.countP (db'.verifies workflow) := by
      rw [hevents, List.countP_append]
      have hold : db.events.countP (db.verifies workflow) ≤ db.events.countP (db'.verifies workflow) :=
        List.countP_mono_left fun e _ he => DB.verifies_later hs he
      omega
    constructor
    · intro _
      exact ⟨hrestarts, fun longResult longInputs heq => absurd ⟨_, _, heq⟩ hcollect⟩
    · intro _
      rw [DB.progressSeq_eq, DB.progressSeq_eq]
      omega

end

/-! ### Runs -/

/-- Engine steps, approvals, completions and cleanups: no approval is rejected and nothing is archived. -/
def Progressing : Turn Move → Prop
  | .begin _ (.answer _ rejected _) => rejected = false
  | .begin _ (.archive _) => False
  | _ => True

instance : DecidablePred Progressing
  | .begin _ (.answer _ rejected _) => inferInstanceAs (Decidable (rejected = false))
  | .begin _ (.archive _) => .isFalse id
  | .begin _ (.start ..) | .begin _ (.resume ..) | .begin _ (.run _) | .begin _ (.step ..) | .begin _ (.handle ..)
  | .begin _ (.child ..) | .begin _ (.children ..) | .begin _ (.ledger _) | .begin _ (.approve ..)
  | .begin _ (.generate ..) | .begin _ (.present ..) | .begin _ (.cancel _) | .begin _ (.restart _)
  | .begin _ (.reconciled _) | .begin _ (.fault ..) | .begin _ (.verify ..) | .go _ | .drop _ => .isTrue trivial

/-- The call that a turn executes takes no milestone of the workflow away. -/
def Engine.KeepsMilestones (workflow : String) (s : Engine) (turn : Turn Move) : Prop :=
  ∀ i thread call rest now, turn = .go i → s.threads i = some thread → thread.program = .send call rest →
    call.exec s.now = .ok now → call.KeepsMilestones s.now workflow

section

variable {cfg : Config} {workflow : String} {trace : List (Taken Engine (Turn Move))} {s : Engine}

theorem Progressing.begins {turn : Turn Move} (h : Progressing turn) : Engine.Begins cfg progressPermits s turn := by
  intro i move hturn
  subst hturn
  cases move with
  | step => exact fun _ _ _ _ => trivial
  | answer _ rejected _ =>
      intro hrejected
      have hnot : rejected = false := h
      rw [hrejected] at hnot
      cases hnot
  | archive => exact h.elim
  | _ => trivial

theorem gated_kept (cfg : Config) :
    Kept cfg progressPermits (fun _ turn _ => Progressing turn) fun db => ∀ w ∈ db.works.rows, w.Gated where
  begins _ _ _ h := h.begins
  origin := fun _ hw => absurd hw List.not_mem_nil
  keep _ _ _ _ _ _ _ _ _ _ hgated hcall hexec := hcall.gated hgated hexec

/-- One turn. -/
theorem turn_progress {turn : Turn Move} (hs : Engine.Sending cfg progressPermits s)
    (hgated : ∀ w ∈ s.now.works.rows, w.Gated) :
    s.now.progressSeq workflow ≤
        (s.after (fun call db => call.exec db) (Move.begin cfg) turn).now.progressSeq workflow ↔
      s.KeepsMilestones workflow turn := by
  have hsent : ∀ i thread call rest, s.threads i = some thread → thread.program = .send call rest →
      EngineCall cfg progressPermits s.now call := by
    intro i thread call rest hthread hprogram
    have hsafe := (hs.2 i thread hthread).2
    rw [hprogram] at hsafe
    exact hsafe.1
  constructor
  · rintro hle i thread call rest now rfl hthread hprogram hexec
    have hnow : (s.after (fun call db => call.exec db) (Move.begin cfg) (.go i)).now = now := by
      simp only [Pool.after, hthread, hprogram, Prog.turn, hexec]
    rw [hnow] at hle
    exact ((hsent i thread call rest hthread hprogram).progress_iff hs.1 hgated hexec).mp hle
  · intro hkeeps
    have hafter := @Pool.after_now _ _ _ _ _ (fun call db => Call.exec db call) (Move.begin cfg) s turn
    rcases hafter with hsame | ⟨i, thread, call, rest, rfl, hthread, hprogram, hexec⟩
    · rw [hsame]
    · exact ((hsent i thread call rest hthread hprogram).progress_iff hs.1 hgated hexec).mpr
        (hkeeps i thread call rest _ rfl hthread hprogram hexec)

/-- In a run without rejections, progress never goes back exactly when no turn takes a milestone away. Then a
step that was recorded below a value once published is never counted again, and a job that has made progress
since its fault does not lack it. -/
theorem progress_monotone_iff (h : (engineSystem cfg .empty).Run trace s)
    (hturns : System.Meets (fun _ turn _ => Progressing turn) trace) :
    ((∀ e ∈ trace, e.before.now.progressSeq workflow ≤ e.after.now.progressSeq workflow) ↔
      System.Meets (fun s turn _ => s.KeepsMilestones workflow turn) trace) ∧
    (System.Meets (fun s turn _ => s.KeepsMilestones workflow turn) trace → ∀ e ∈ trace,
      e.after.now.progressSeq workflow ≤ s.now.progressSeq workflow ∧
      (∀ (o : Observation) (limit : Nat), o.progressSeq = s.now.progressSeq workflow →
        cycle { o with steps :=
            o.steps.filter fun row => decide (e.after.now.progressSeq workflow ≤ row.progressSeq) } limit =
          cycle o limit) ∧
      ∀ fault ≤ e.before.now.progressSeq workflow,
        e.before.now.progressSeq workflow < e.after.now.progressSeq workflow →
          lacksProgress (s.now.progressSeq workflow) fault = false) := by
  have hkept := gated_kept cfg
  have hturn : ∀ e ∈ trace, e.before.now.progressSeq workflow ≤ e.after.now.progressSeq workflow ↔
      e.before.KeepsMilestones workflow e.label := by
    intro e he
    obtain ⟨⟨hsending, hgated⟩, -⟩ := hkept.turns h hturns he
    have hafter : e.after = e.before.after (fun call db => call.exec db) (Move.begin cfg) e.label :=
      (h.taken he).2
    rw [hafter]
    exact turn_progress hsending hgated
  have hiff : (∀ e ∈ trace, e.before.now.progressSeq workflow ≤ e.after.now.progressSeq workflow) ↔
      System.Meets (fun s turn _ => s.KeepsMilestones workflow turn) trace :=
    forall₂_congr hturn
  refine ⟨hiff, fun hmeets e he => ?_⟩
  have hsteps : System.Meets (fun s _ t => s.now.progressSeq workflow ≤ t.now.progressSeq workflow) trace :=
    hiff.mpr hmeets
  have hlater : e.after.now.progressSeq workflow ≤ s.now.progressSeq workflow :=
    h.lasts_of_meets (P := fun t => e.after.now.progressSeq workflow ≤ t.now.progressSeq workflow)
      (fun _ _ _ hs hst _ => Nat.le_trans hs hst) hsteps he (Nat.le_refl _)
  refine ⟨hlater, fun o limit ho => cycle_recent (by omega), fun fault hfault hmade => ?_⟩
  simp only [lacksProgress, decide_eq_false_iff_not]
  omega

/-- A fix is verified with progress, enters some more steps, and is delivered. -/
def verifiedTurns (candidate : Candidate) (scope : Path) (delivery : Delivery) (entered : Nat) : List (Turn Move) :=
  deliveringTurns candidate scope ++
    [.begin 0 (.ledger (.event "root" (.named "verified_progress"))), .go 0] ++
    (List.replicate entered
      [Turn.begin 0 (Move.ledger (.event "root" (.named "step_entered"))), .go 0]).flatten ++
    effectTurns 11 .deliver (.deliver candidate) (.delivery delivery) ++
    [.begin 0 (.step "root" { fixing candidate .deliver {} with delivery := .ok delivery }), .go 0]

def docsDelivery : Delivery := ⟨.initial ∅ "delivered", docsCandidate.paths⟩

/-- It is delivered at once. -/
def shortTurns : List (Turn Move) := verifiedTurns docsCandidate ["docs"] docsDelivery 0

/-- It has been repaired for long, and is cleaned up once it has completed. -/
def cleanedTurns : List (Turn Move) :=
  verifiedTurns docsCandidate ["docs"] docsDelivery 64 ++
    [.begin 0 (.ledger (.collect (fun _ => false) fun _ => false)), .go 0]

theorem progressing_taken {turns : List (Turn Move)} (h : ∀ turn ∈ turns, Progressing turn) :
    System.Meets (fun _ turn _ => Progressing turn) (engineTaken turns) :=
  fun _ he => h _ (Pool.mem_taken _ _ he)

set_option maxRecDepth 20000 in
theorem progress_monotone_iff_delivered :
    (engineAfter shortTurns).now.progressSeq "flow" = 2 ∧
      ∀ e ∈ engineTaken shortTurns, e.after.now.progressSeq "flow" ≤ 2 := by
  have hsteps : ∀ e ∈ engineTaken shortTurns, e.before.now.progressSeq "flow" ≤ e.after.now.progressSeq "flow" := by
    decide +kernel
  have htwo : (engineAfter shortTurns).now.progressSeq "flow" = 2 := rfl
  obtain ⟨hiff, hkept⟩ := progress_monotone_iff (engineAfter_run shortTurns) (progressing_taken (by decide))
  refine ⟨htwo, fun e he => ?_⟩
  rw [← htwo]
  exact (hkept (hiff.mp hsteps) e he).1

set_option maxRecDepth 20000 in
/-- Cleanup takes back the progress of a fix that has completed. -/
theorem cleanup_loses_progress : ∃ trace s, (engineSystem {} .empty).Run trace s ∧
    System.Meets (fun _ turn _ => Progressing turn) trace ∧
    ∃ e ∈ trace, e.before.now.progressSeq "flow" = 2 ∧ e.after.now.progressSeq "flow" = 1 := by
  refine ⟨_, _, engineAfter_run cleanedTurns, progressing_taken (by decide), ?_⟩
  exact ⟨(engineTaken cleanedTurns).getLast (by decide), List.getLast_mem _, rfl, rfl⟩

end

end AutoAgents
