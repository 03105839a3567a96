import AutoAgents.EngineTasks

/-! The schedule of a run. Tasks start only after all they depend on, each is done at most once over a
whole run, and the run goes on to its readme when all are done; it never finds itself without a task that
it may start, whatever the limits, the crashes and the resumptions. -/

namespace AutoAgents

open Base Base.Table Program

section

variable {cfg : Config} {P : Permits} {db db' : DB} {call : Call} {w w' : Work}

/-! ### Pending tasks -/

theorem pendingTasks_eq_nil {state : Context} :
    pendingTasks state = [] ↔ ∀ task ∈ state.tasks, task.taskId ∈ state.doneTasks := by
  simp [pendingTasks, List.filter_eq_nil_iff]

/-- Only an empty list of ready tasks is a cycle in the plan. -/
theorem readSpec_error {value : RawCheck} {e : ControlError} (h : DB.readSpec value = .error e) :
    e.code = "verification_spec" := by
  unfold DB.readSpec at h
  split at h
  · split at h
    · cases h
      rfl
    · split at h
      · cases h
      · cases h
        rfl
  · cases h
    rfl

theorem compileCheck_error {commands : Commands} {value : RawCheck} {e : ControlError}
    (h : compileCheck commands value = .error e) : e.code = "model_output" ∨ e.code = "verification_spec" := by
  simp only [compileCheck] at h
  rcases guard_error h with rfl | h
  · exact Or.inl rfl
  rcases guard_error h with rfl | h
  · exact Or.inl rfl
  rcases guard_error h with rfl | h
  · exact Or.inl rfl
  rcases guard_error h with rfl | h
  · exact Or.inl rfl
  rcases guard_error h with rfl | h
  · exact Or.inl rfl
  rcases guard_error h with rfl | h
  · exact Or.inl rfl
  · exact Or.inr (readSpec_error h)

theorem compileChecks_error {commands : Commands} {values : List RawCheck} {e : ControlError}
    (h : compileChecks commands values = .error e) : e.code ≠ "plan_cycle" := by
  obtain ⟨value, -, hvalue⟩ := mapM_error h
  rcases compileCheck_error hvalue with hcode | hcode <;> rw [hcode] <;> decide

/-- Only a run without a task that it may start finds a cycle in its plan. -/
theorem stepSchedule_error {o : Observed} {e : ControlError}
    (hready : pendingTasks w.context ≠ [] → readyTasks w.context ≠ [])
    (h : stepSchedule cfg o w = .error e) : e.code ≠ "plan_cycle" := by
  unfold stepSchedule at h
  split at h
  · cases h
  next hpending =>
  split at h
  · cases h
  split at h
  · next hnone => exact absurd hnone (hready hpending)
  · next task rest _ =>
      simp only at h
      split at h
      · cases h
      · unfold startTask at h
        cases hchecks : compileChecks o.commands task.checks with
        | error e' =>
            rw [hchecks] at h
            cases h
            exact compileChecks_error hchecks
        | ok checks =>
            rw [hchecks] at h
            cases h

/-! ### What starts -/

/-- A planned child is added only for a task that its parent may start. -/
theorem EngineCall.starts (h : EngineCall cfg P db call) (hexec : call.exec db = .ok db') {child : Work}
    {parent task : String} (hadds : call.Adds db child) (hparent : child.parent = some parent)
    (htask : child.planned = some task) :
    ∃ w, db.works.find parent = some w ∧ ∃ t ∈ readyTasks w.context, t.taskId = task := by
  rcases h.added hadds with ⟨-, hroot | hfree⟩ | ⟨record, hseen, -, hrewrites⟩
  · rw [hroot] at hparent
    cases hparent
  · rw [hfree] at htask
    cases htask
  -- The record was current, as the parent is parked in the same transaction.
  have hcurrent : ∀ row, db.works.find record.id = some row → row.revision = record.revision →
      row.context = record.context := by
    intro row hrow hrev
    rw [hseen.current hrow hrev]
  have hfound : ∃ row, db.works.find record.id = some row := hseen.2.imp fun _ hrow => hrow.1
  cases hrewrites with
  | steady hquiet =>
      rw [Call.creates_of_adds hadds] at hquiet
      cases hquiet
  | single _ hwhy =>
      obtain ⟨-, -, row, -, -, hrow, hrev, -⟩ := DB.child_found hfound hexec
      obtain ⟨pc, c, -, hbuild, rfl⟩ := hadds
      obtain ⟨-, -, -, -, -, -, -, -, hinputs, -⟩ := Contract.build_eq_ok hbuild
      cases hparent
      have htask : c.inputs.plannedTask = some task := htask
      rw [hinputs] at htask
      rcases hwhy with ⟨-, rfl⟩ | ⟨-, -, -, t, ht, hsame⟩
      · cases htask
      · refine ⟨row, hrow, t, ?_, Option.some.inj (hsame.symm.trans htask)⟩
        rwa [hcurrent row hrow hrev]
  | batch =>
      obtain ⟨⟨row, hrow, hrev⟩, -⟩ := DB.batch_found hfound hexec
      obtain ⟨pc, c, id, t, checks, -, hmem, -, hbuild, rfl⟩ := hadds
      obtain ⟨-, -, -, -, -, -, -, -, hinputs, -⟩ := Contract.build_eq_ok hbuild
      cases hparent
      have htask : c.inputs.plannedTask = some task := htask
      rw [hinputs] at htask
      refine ⟨row, hrow, t, ?_, Option.some.inj htask⟩
      rw [hcurrent row hrow hrev]
      exact Work.batch_mem hmem
  | _ => exact absurd hadds id

/-! ### What is done once -/

/-- A task that the run will not do again: it is done, or nothing of the plan is left at all. -/
structure Work.Spent (task : String) (w : Work) : Prop where
  planned : ¬ w.Early
  spent : task ∈ w.context.doneTasks ∨ w.context.tasks = [] ∧ w.context.awaited = []

/-- A spent task stays spent, and is not done again. -/
theorem Moved.spent {task : String} (h : Moved cfg P db call w w') (hrun : w.mode = .run) (hspent : w.Spent task) :
    w'.Spent task ∧ (task ∈ w'.context.doneTasks → task ∈ w.context.doneTasks) := by
  cases h with
  | same => exact ⟨hspent, id⟩
  | charged => exact ⟨⟨hspent.planned, hspent.spent⟩, id⟩
  | rewritten record n _ _ hplaced hrewrites =>
      have hearly : ¬ record.Early := hspent.planned
      have hdone : task ∈ record.context.doneTasks ∨ record.context.tasks = [] ∧ record.context.awaited = [] :=
        hspent.spent
      have hrun : record.mode = .run := hrun
      have hforeign := hplaced.modes hrun
      suffices (call.rewritten record).Spent task ∧
          (task ∈ (call.rewritten record).context.doneTasks → task ∈ record.context.doneTasks) from
        ⟨⟨this.1.planned, this.1.spent⟩, this.2⟩
      cases hrewrites with
      | steady _ hsteady =>
          obtain ⟨htasks, hsame, -, hawaited⟩ := hsteady.tracks
          refine ⟨⟨fun he => hearly (hsteady.early he), ?_⟩, fun h => hsame ▸ h⟩
          rw [hsame, htasks]
          refine hdone.imp_right fun hnone => ⟨hnone.1, ?_⟩
          rcases hawaited with h | h <;> rw [h]
          exact hnone.2
      | planned _ hphase =>
          refine absurd (Or.inl ?_) hearly
          rw [hphase]
          decide
      | single _ hwhy =>
          rcases hwhy with ⟨hphase, -⟩ | ⟨-, -, hphase, t, hready, -⟩
          · refine absurd ?_ hforeign
            rcases hphase with h | h <;> rw [h] <;> decide
          · have hmem : t ∈ record.context.tasks := List.mem_of_mem_filter (List.mem_of_mem_filter hready)
            refine ⟨⟨?_, hdone.imp_right fun hnone => ?_⟩, id⟩
            · rintro (hplan | ⟨hwaiting, -⟩)
              · have hplan : record.phase ∈ planPhases := hplan
                exact hearly (Or.inl hplan)
              · cases hwaiting
            · rw [hnone.1] at hmem
              exact absurd hmem List.not_mem_nil
      | awaits hphase =>
          refine absurd ?_ hforeign
          rw [hphase]
          decide
      | @batch o _ _ _ =>
          refine ⟨⟨?_, hdone.imp_right fun hnone => ⟨hnone.1, ?_⟩⟩, id⟩
          · rintro (hplan | ⟨hwaiting, -⟩)
            · have hplan : record.phase ∈ planPhases := hplan
              exact hearly (Or.inl hplan)
            · cases hwaiting
          · have hready : readyTasks record.context = [] := by simp [readyTasks, pendingTasks, hnone.1]
            have hbatch : record.batch cfg o = [] := List.sublist_nil.mp (hready ▸ record.batch_sublist cfg o)
            show (o.fresh.zip (record.batch cfg o)).map Prod.fst = []
            rw [hbatch, List.zip_nil_right]
            rfl
      | @joined child candidate done _ hwaiting hchild _ _ hdoneWith =>
          obtain ⟨t, -, rfl⟩ := doneWith_run hrun hdoneWith
          have hawaited : record.context.awaited = [child.id] := by
            rw [Context.awaited, hwaiting, hchild]
            rfl
          rw [hawaited] at hdone
          have hmem : task ∈ record.context.doneTasks := hdone.resolve_right fun h => by cases h.2
          refine ⟨⟨?_, Or.inl (List.mem_append_left _ hmem)⟩, fun _ => hmem⟩
          rintro (hplan | ⟨hnone, -⟩)
          · have hplan : (if record.mode = .collab ∨ record.mode = .fix ∧ record.phase = .classify then
                Phase.acceptance else record.phase) ∈ planPhases := hplan
            rw [joined_phase hrun] at hplan
            exact hearly (Or.inl hplan)
          · cases hnone
      | @gathered children tasks candidate _ hwaiting hall hsub htasks =>
          have hplanned : ∀ (context : Context), context.waitingFor = none → ¬ Work.Early
              { record with context } := by
            rintro context hnone (hplan | ⟨hasked, -⟩)
            · exact hearly (Or.inl hplan)
            · rw [hnone] at hasked
              cases hasked
          rcases hdone with hmem | hnone
          · exact ⟨⟨hplanned _ rfl, Or.inl (List.mem_append_left _ hmem)⟩, fun _ => hmem⟩
          · have hempty : record.context.children = [] := by
              rw [← hnone.2, Context.awaited, hwaiting]
            rw [hempty] at hsub
            have hchildren : children = [] := List.map_eq_nil_iff.mp (List.sublist_nil.mp hsub)
            subst hchildren
            simp only [List.mapM_nil, pure_ok] at htasks
            subst htasks
            refine ⟨⟨hplanned _ rfl, Or.inr ⟨hnone.1, rfl⟩⟩, fun hmem => ?_⟩
            have hmem : task ∈ record.context.doneTasks ++ [] := hmem
            rwa [List.append_nil] at hmem
      | promoted _ hfix =>
          rw [hfix] at hrun
          cases hrun
      | archived =>
          refine ⟨⟨?_, Or.inr ⟨rfl, rfl⟩⟩, fun hmem => absurd hmem List.not_mem_nil⟩
          rintro (hplan | ⟨hwaiting, -⟩)
          · exact hearly (Or.inl hplan)
          · cases hwaiting

/-! ### From implement to readme -/

/-- A run that leaves `implement` for `readme` has done all its tasks. -/
theorem Moved.readme (h : Moved cfg P db call w w') (hrun : w.mode = .run) (himplement : w.phase = .implement)
    (hreadme : w'.phase = .readme) : pendingTasks w.context = [] := by
  cases h with
  | same | charged =>
      have hreadme : w.phase = .readme := hreadme
      rw [himplement] at hreadme
      cases hreadme
  | rewritten record n _ _ hplaced hrewrites =>
      have himplement : record.phase = .implement := himplement
      have hreadme : (call.rewritten record).phase = .readme := hreadme
      have hsame : record.phase = .readme → pendingTasks record.context = [] := by
        intro hphase
        rw [himplement] at hphase
        cases hphase
      cases hrewrites with
      | steady _ hsteady => exact hsteady.readme hrun himplement hreadme
      | planned _ hphase =>
          rw [himplement] at hphase
          cases hphase
      | joined =>
          have hphase : (if record.mode = .collab ∨ record.mode = .fix ∧ record.phase = .classify then
            Phase.acceptance else record.phase) = .readme := hreadme
          rw [joined_phase hrun] at hphase
          exact hsame hphase
      | single | awaits | batch | gathered | archived => exact hsame hreadme
      | promoted _ hfix =>
          have hrun : record.mode = .run := hrun
          rw [hfix] at hrun
          cases hrun

end

/-! ### Runs of the engine -/

/-- All runs stay on their plan, in every run of the engine. -/
theorem planned_kept (cfg : Config) : Kept cfg .all (fun _ _ _ => True) DB.Planned where
  begins s turn _ _ := Engine.begins_all cfg s turn
  origin w hw := by cases hw
  keep _ _ _ _ _ _ _ _ _ hholds hplanned hcall hexec := hcall.planned hholds hplanned hexec

/-- A transition in which a task of a run becomes done. -/
def Finishes (work task : String) (e : Taken Engine (Turn Move)) : Prop :=
  ∃ w w', e.before.now.works.find work = some w ∧ e.after.now.works.find work = some w' ∧ w.mode = .run ∧
    task ∉ w.context.doneTasks ∧ task ∈ w'.context.doneTasks

/-- A run of a store that has spent a task. -/
def DB.Spent (work task : String) (db : DB) : Prop :=
  ∃ w, db.works.find work = some w ∧ w.mode = .run ∧ w.Spent task

section

variable {cfg : Config} {P : Permits} {trace : List (Taken Engine (Turn Move))} {s t : Engine} {turn : Turn Move}

/-- What a turn does to a row that is there. -/
theorem taken_row {before after : DB} {work : String} {w : Work}
    (h : after = before ∨ ∃ call, EngineCall cfg P before call ∧ call.exec before = .ok after)
    (hw : before.works.find work = some w) :
    ∃ w', after.works.find work = some w' ∧ ∃ call, Moved cfg P before call w w' := by
  rcases h with rfl | ⟨call, hcall, hexec⟩
  · exact ⟨w, hw, .orphanCalls, .same w⟩
  · obtain ⟨w', hw', hmoved⟩ := Grown.find (hcall.rows hexec) hw
    exact ⟨w', hw', call, hmoved⟩

theorem spent_next {work task : String} (hs : Engine.Sending cfg .all s ∧ s.now.Planned)
    (hstep : (engineSystem cfg .empty).step s turn t) (hspent : s.now.Spent work task) :
    t.now.Spent work task ∧ ¬ Finishes work task ⟨s, turn, t⟩ := by
  cases hstep
  obtain ⟨w, hw, hrun, hspent⟩ := hspent
  obtain ⟨w', hw', call, hmoved⟩ := taken_row (hs.1.after_now turn) hw
  obtain ⟨hlater, hold⟩ := hmoved.spent hrun hspent
  have hmode : w'.mode = .run := by
    cases hmoved with
    | same | charged => exact hrun
    | rewritten record n => exact (Call.rewritten_mode call record).trans hrun
  refine ⟨⟨w', hw', hmode, hlater⟩, ?_⟩
  rintro ⟨v, v', hv, hv', -, hopen, hdone⟩
  obtain rfl := Option.some.inj (hw.symm.trans hv)
  obtain rfl := Option.some.inj (hw'.symm.trans hv')
  exact hopen (hold hdone)

/-- A task that has become done is spent. -/
theorem Finishes.spent {work task : String} {e : Taken Engine (Turn Move)} (h : Finishes work task e)
    (hplanned : e.after.now.Planned) (hmodes : ∀ w w', e.before.now.works.find work = some w →
      e.after.now.works.find work = some w' → w'.mode = w.mode) : e.after.now.Spent work task := by
  obtain ⟨w, w', hw, hw', hrun, -, hdone⟩ := h
  have hrun' : w'.mode = .run := (hmodes w w' hw hw').trans hrun
  have hplan := hplanned w' (find_some hw').1 hrun'
  refine ⟨w', hw', hrun', fun he => ?_, Or.inl hdone⟩
  rw [(hplan.early he).1] at hdone
  exact absurd hdone List.not_mem_nil

/-- No task of a run becomes done in two transitions. -/
theorem finishes_once (h : (engineSystem cfg .empty).Run trace s) :
    trace.Pairwise fun e d => ∀ work task, Finishes work task e → ¬ Finishes work task d := by
  refine h.pairwise fun trace s turn t hrun hstep e he work task hfinished => ?_
  have hkept := planned_kept cfg
  have hlast : (Engine.Sending cfg .all s ∧ s.now.Planned) ∧ s.now.Spent work task := by
    refine hrun.lasts (P := fun s => (Engine.Sending cfg .all s ∧ s.now.Planned) ∧ s.now.Spent work task) ?_ he ?_
    · exact fun s turn t hs hstep => ⟨hkept.next s turn t hs.1 trivial hstep, (spent_next hs.1 hstep hs.2).1⟩
    · obtain ⟨hbefore, hcalls⟩ := hkept.turns hrun (fun _ _ => trivial) he
      have hafter := hkept.next e.before e.label e.after hbefore trivial (hrun.taken he).2
      refine ⟨hafter, hfinished.spent hafter.2 fun w w' hw hw' => ?_⟩
      obtain ⟨found, hfound, call, hmoved⟩ := taken_row hcalls hw
      obtain rfl := Option.some.inj (hfound.symm.trans hw')
      cases hmoved with
      | same | charged => rfl
      | rewritten record n => exact Call.rewritten_mode call record
  exact (spent_next hlast.1 hstep hlast.2).2

/-- Every run of the engine keeps to the plans of its runs: with tasks left one may start, and no schedule
finds a cycle; a planned child starts only when all its task depends on is done; no task becomes done
twice; and a run leaves `implement` for `readme` exactly when all its tasks are done. -/
theorem schedule_respects_plan (h : (engineSystem cfg .empty).Run trace s) :
    (∀ w ∈ s.now.works.rows, w.mode = .run →
      (pendingTasks w.context ≠ [] → readyTasks w.context ≠ []) ∧
      (∀ (o : Observed) (e : ControlError), stepSchedule cfg o w = .error e → e.code ≠ "plan_cycle") ∧
      w.context.doneTasks.Nodup) ∧
    (∀ e ∈ trace, ∀ child ∈ e.after.now.works.rows, e.before.now.works.find child.id = none →
      ∀ parent task, child.parent = some parent → child.planned = some task →
        ∃ w, e.before.now.works.find parent = some w ∧ ∃ t ∈ w.context.tasks, t.taskId = task ∧
          ∀ d ∈ t.dependsOn, d ∈ w.context.doneTasks) ∧
    (trace.Pairwise fun e d => ∀ work task, Finishes work task e → ¬ Finishes work task d) ∧
    (∀ e ∈ trace, ∀ work w w', e.before.now.works.find work = some w → e.after.now.works.find work = some w' →
      w.mode = .run → w.phase = .implement → w'.phase = .readme →
        ∀ task ∈ w.context.tasks, task.taskId ∈ w.context.doneTasks) ∧
    (∀ w : Work, w.mode = .run → w.phase = .implement →
      (∀ task ∈ w.context.tasks, task.taskId ∈ w.context.doneTasks) → ∀ (o : Observed) (db : DB) (c : Contract),
        w.step cfg o db c = .ok (advance w .readme w.context none)) := by
  have hkept := planned_kept cfg
  refine ⟨fun w hw hrun => ?_, fun e he => ?_, finishes_once h, fun e he => ?_, ?_⟩
  · have hplan := (hkept.throughout h fun _ _ => trivial).2 w hw hrun
    have hready : pendingTasks w.context ≠ [] → readyTasks w.context ≠ [] := readyTasks_of_pending hplan.plan
    exact ⟨hready, fun o e => stepSchedule_error hready, (List.nodup_append.mp hplan.once).1⟩
  · intro child hchild hfree parent task hparent htask
    obtain ⟨-, hsame | ⟨call, hcall, hexec⟩⟩ := hkept.turns h (fun _ _ => trivial) he
    · rw [hsame] at hchild
      rw [find_of_mem hchild] at hfree
      cases hfree
    · rcases (hcall.rows hexec).mem hchild with ⟨w, hw, hkey, -⟩ | ⟨⟨hadds, -⟩, -⟩
      · rw [← hkey, find_of_mem hw] at hfree
        cases hfree
      · obtain ⟨w, hw, t, ht, hid⟩ := hcall.starts hexec hadds hparent htask
        obtain ⟨hpending, hdeps⟩ := List.mem_filter.mp ht
        refine ⟨w, hw, t, List.mem_of_mem_filter hpending, hid, fun d hd => ?_⟩
        simpa using List.all_eq_true.mp hdeps d hd
  · intro work w w' hw hw' hrun himplement hreadme
    obtain ⟨-, hcalls⟩ := hkept.turns h (fun _ _ => trivial) he
    obtain ⟨found, hfound, call, hmoved⟩ := taken_row hcalls hw
    obtain rfl := Option.some.inj (hfound.symm.trans hw')
    exact pendingTasks_eq_nil.mp (hmoved.readme hrun himplement hreadme)
  · intro w hrun himplement hdone o db c
    simp only [Work.step, himplement, hrun, if_true, stepSchedule, if_pos (pendingTasks_eq_nil.mpr hdone)]

set_option maxRecDepth 20000 in
theorem schedule_respects_plan_docs : ∃ w ∈ (engineAfter (plannedTurns docsCandidate [docsTask])).now.works.rows,
    w.mode = .run ∧ w.phase = .implement ∧ pendingTasks w.context ≠ [] ∧ readyTasks w.context ≠ [] := by
  have hschedule := (schedule_respects_plan (engineAfter_run (plannedTurns docsCandidate [docsTask]))).1
  have hrow : ∃ w ∈ (engineAfter (plannedTurns docsCandidate [docsTask])).now.works.rows,
      w.mode = .run ∧ w.phase = .implement ∧ pendingTasks w.context ≠ [] :=
    ⟨_, List.mem_cons_self, rfl, rfl, List.cons_ne_nil _ _⟩
  obtain ⟨w, hw, hrun, himplement, hpending⟩ := hrow
  exact ⟨w, hw, hrun, himplement, hpending, (hschedule w hw hrun).1 hpending⟩

end

end AutoAgents
