import AutoAgents.StoreRows

/-! The status of a work item. Every method but `bind_contract` moves a status along `TRANSITIONS`;
`bind_contract` makes its work item ready again, whatever the status of the record it was given. -/

namespace AutoAgents

open Base Base.Table

/-- The operations that keep a work item from completion are resolved: its own and, for a root, those
of its whole workflow. -/
def DB.Resolved (db : DB) (w : Work) : Prop :=
  (∀ op ∈ db.operations.rows, op.work = w.id → op.state.unresolved = false) ∧
    (w.parent = none → ∀ op ∈ db.operations.rows, ∀ owner, db.works.find op.work = some owner →
      owner.workflow = w.workflow → op.state.unresolved = false)

/-- What the transition graph says about two successive databases. -/
structure DB.Graphed (db db' : DB) : Prop where
  edge : ∀ id w w', db.works.find id = some w → db'.works.find id = some w' →
    w'.status = w.status ∨ w'.status ∈ w.status.transitions
  completed : ∀ id w w', db.works.find id = some w → db'.works.find id = some w' →
    w.status ≠ .completed → w'.status = .completed → db'.Resolved w'
  created : ∀ id w', db.works.find id = none → db'.works.find id = some w' → w'.status = .ready

/-- A call that moves its work item on with a completed contract is given a live record. -/
def Call.BindsLive : Call → Prop
  | bindContract work _ (some _) _ _ => work.status.terminal = false
  | _ => True

namespace Call

variable {db db' : DB} {call : Call}

theorem ready_of_live {s : Status} (h : s.terminal = false) : .ready = s ∨ .ready ∈ s.transitions := by
  cases s with
  | ready => exact Or.inl rfl
  | completed | cancelled => cases h
  | running | waiting | blocked => exact Or.inr (by decide)

theorem records_unique {w w' : Work} (h : w ∈ call.records) (h' : w' ∈ call.records) : w = w' := by
  cases call <;> first
    | exact (List.mem_singleton.mp h).trans (List.mem_singleton.mp h').symm
    | exact absurd h List.not_mem_nil

/-- The status a call writes, from the record it was given. -/
theorem rewritten_status {w : Work} (hadmits : call.Admits w) (hlive : call.BindsLive)
    (hrecord : ∀ record ∈ call.records, record.status = w.status) :
    (call.rewritten w).status = w.status ∨ (call.rewritten w).status ∈ w.status.transitions := by
  cases call with
  | transition record status changes operation operations => exact hadmits
  | child | batch => exact hadmits
  | bindContract record c nextPhase context operation =>
      cases nextPhase with
      | none => exact Or.inl rfl
      | some phase =>
          have hstatus : record.status = w.status := hrecord record (List.mem_singleton.mpr rfl)
          rw [BindsLive, hstatus] at hlive
          exact ready_of_live hlive
  | _ => exact hadmits.elim

/-- Only a transition makes a work item completed. -/
theorem rewritten_completed {w : Work} (hadmits : call.Admits w) (hopen : w.status ≠ .completed)
    (hdone : (call.rewritten w).status = .completed) :
    ∃ record changes operation operations, call = .transition record .completed changes operation operations := by
  cases call with
  | transition record status changes operation operations =>
      have hstatus : status = .completed := hdone
      exact ⟨record, changes, operation, operations, by rw [hstatus]⟩
  | child | batch => cases hdone
  | bindContract record c nextPhase context operation =>
      cases nextPhase with
      | none => exact absurd hdone hopen
      | some phase => cases hdone
  | _ => exact hadmits.elim

/-- A new work item is ready. -/
theorem adds_ready {w : Work} (h : call.Adds db w) : w.status = .ready := by
  cases call with
  | createWorkflow =>
      obtain ⟨c, -, rfl⟩ := h
      rfl
  | child | addon =>
      obtain ⟨pc, c, -, -, rfl⟩ := h
      rfl
  | batch =>
      obtain ⟨pc, c, id, task, checks, -, -, -, -, rfl⟩ := h
      rfl
  | _ => exact h.elim

/-- A transition to `COMPLETED` has found every operation of the work item resolved. -/
theorem transition_resolved {record : Work} {changes : Changes} {operation : Option OperationId}
    {operations : List OperationId} (hrecord : ∃ row, db.works.find record.id = some row ∧ Work.Later record row)
    (h : exec db (.transition record .completed changes operation operations) = .ok db') :
    ∃ w', db'.works.find record.id = some w' ∧ db'.Resolved w' := by
  obtain ⟨row, hrow, hlater⟩ := hrecord
  have hrows := exec_rows (fun w hw => ⟨row, (List.mem_singleton.mp hw) ▸ hrow⟩) h
  have hwrote := (exec_ok h).resolve_left fun ⟨_, _, _, _, _, _, hcall, _⟩ => nomatch hcall
  obtain ⟨mid, hmove, hconsume⟩ := bind_ok.mp h
  obtain ⟨current, hcurrent, -, -, hopen, rfl⟩ := DB.transitionRow_ok hmove
  obtain rfl := Option.some.inj (hrow.symm.trans hcurrent)
  obtain ⟨w', hw', -⟩ := hrows.find hrow
  obtain ⟨w'', hw'', hlater'⟩ := (exec_advanced h).works _ _ hrow
  obtain rfl := Option.some.inj (hw'.symm.trans hw'')
  -- The transaction settles nothing: an operation has the state it was checked in.
  have hsame : ∀ op' ∈ db'.operations.rows, ∃ op ∈ db.operations.rows,
      op'.work = op.work ∧ op'.state = op.state := by
    intro op' hop'
    rcases Grown.mem hwrote.operations hop' with ⟨op, hop, -, hmoved⟩ | hnew
    · rcases hmoved with rfl | ⟨-, rfl⟩
      · exact ⟨_, hop, rfl, rfl⟩
      · exact ⟨op, hop, rfl, rfl⟩
    · exact hnew.elim
  refine ⟨w', hw', fun op' hop' hwork => ?_, fun hroot op' hop' owner howner hflow => ?_⟩
  · obtain ⟨op, hop, hsamework, hstate⟩ := hsame op' hop'
    have hchecked := hopen rfl op hop
    have hself : op.work = record.id := by
      rw [← hsamework, hwork]
      exact find_key hw'
    rw [hstate]
    simpa [DB.blocksCompletion, hself] using hchecked
  · obtain ⟨op, hop, hsamework, hstate⟩ := hsame op' hop'
    have hchecked := hopen rfl op hop
    have hparent : row.parent = none := hlater'.parent.symm.trans hroot
    have howned : db.inWorkflow record.workflow op = true := by
      rcases Grown.mem hrows (find_some howner).1 with ⟨old, hold, -, hmoved⟩ | ⟨hnew, -⟩
      · obtain ⟨owner', howner', hkept⟩ := (exec_advanced h).works _ _ (find_of_mem hold)
        have hid : old.id = op.work := by
          have hkey : owner.id = op'.work := find_key howner
          rcases hmoved with rfl | ⟨-, rfl⟩
          · exact hkey.trans hsamework
          · exact hkey.trans hsamework
        have hworkflow : old.workflow = owner.workflow := by
          rcases hmoved with rfl | ⟨-, rfl⟩ <;> rfl
        rw [DB.inWorkflow, ← hid, find_of_mem hold, Option.any_some, beq_iff_eq, hworkflow, hflow,
          hlater'.workflow, hlater.workflow]
      · exact hnew.elim
    rw [hstate]
    simpa [DB.blocksCompletion, hparent, howned] using hchecked

variable (hrecords : ∀ w ∈ call.records, ∃ row, db.works.find w.id = some row ∧ Work.Later w row)
include hrecords

/-- A row whose status changes was rewritten from a record that has its status. -/
theorem exec_moved (h : call.exec db = .ok db') {id : String} {w w' : Work}
    (hw : db.works.find id = some w) (hw' : db'.works.find id = some w') :
    w'.status = w.status ∨ ∃ record ∈ call.records, w.id = record.id ∧ call.Admits w ∧
      w' = call.rewritten w ∧ ∀ r ∈ call.records, r.status = w.status := by
  have hrows := exec_rows (fun w hw => (hrecords w hw).imp fun _ hrow => hrow.1) h
  obtain ⟨w'', hw'', hwrites⟩ := hrows.find hw
  obtain rfl := Option.some.inj (hw'.symm.trans hw'')
  rcases writes_cases hwrites with rfl | ⟨n, rfl⟩ | ⟨record, hrecord, hid, hrev, hadmits, rfl⟩
  · exact Or.inl rfl
  · exact Or.inl rfl
  · refine Or.inr ⟨record, hrecord, hid, hadmits, rfl, fun r hr => ?_⟩
    obtain ⟨row, hrow, hlater⟩ := hrecords record hrecord
    have hkey : w.id = id := find_key hw
    rw [← hid, hkey, hw] at hrow
    obtain rfl := Option.some.inj hrow
    -- The record is the row, but for calls charged since.
    have hsame := hlater.current hrev
    rw [records_unique hr hrecord, hsame]

/-- A work item that becomes completed has its operations resolved. -/
theorem exec_completed (h : call.exec db = .ok db') {id : String} {w w' : Work}
    (hw : db.works.find id = some w) (hw' : db'.works.find id = some w') (hopen : w.status ≠ .completed)
    (hdone : w'.status = .completed) : db'.Resolved w' := by
  rcases exec_moved hrecords h hw hw' with hsame | ⟨record, hrecord, hid, hadmits, rfl, -⟩
  · exact absurd (hsame.symm.trans hdone) hopen
  · obtain ⟨r, changes, operation, operations, rfl⟩ := rewritten_completed hadmits hopen hdone
    obtain rfl := List.mem_singleton.mp hrecord
    obtain ⟨w'', hw'', hresolved⟩ := transition_resolved (hrecords _ (List.mem_singleton.mpr rfl)) h
    have hkey : w.id = id := find_key hw
    rw [← hid, hkey, hw'] at hw''
    obtain rfl := Option.some.inj hw''
    exact hresolved

/-- A call that succeeds keeps to the graph, unless it moves a terminal record on. -/
theorem exec_graphed (hlive : call.BindsLive) (h : call.exec db = .ok db') : db.Graphed db' where
  edge id w w' hw hw' := by
    rcases exec_moved hrecords h hw hw' with hsame | ⟨record, -, -, hadmits, rfl, hstatus⟩
    · exact Or.inl hsame
    · exact rewritten_status hadmits hlive hstatus
  completed id w w' hw hw' hopen hdone := exec_completed hrecords h hw hw' hopen hdone
  created id w' hnone hw' := by
    have hrows := exec_rows (fun w hw => (hrecords w hw).imp fun _ hrow => hrow.1) h
    rcases Grown.mem hrows (find_some hw').1 with ⟨w, hw, hid, -⟩ | ⟨hadds, -⟩
    · have hkey : w'.id = id := find_key hw'
      exact absurd (hid.trans hkey) (find_eq_none.mp hnone w hw)
    · exact adds_ready hadds

omit hrecords in
/-- An operation of a completed work item stays resolved, and no other is reserved for it. -/
theorem exec_settled (h : call.exec db = .ok db') {w : Work} (hw : db.works.find w.id = some w)
    (hdone : w.status = .completed)
    (hsettled : ∀ op ∈ db.operations.rows, op.work = w.id → op.state.unresolved = false) :
    ∀ op ∈ db'.operations.rows, op.work = w.id → op.state.unresolved = false := by
  intro op' hop' hwork
  rcases exec_ok h with ⟨record, kind, ordinal, inputs, model, provider, -, hnew⟩ | hwrote
  · obtain ⟨hfresh, rfl⟩ := hnew.writes
    obtain ⟨node, hnode, -, hrunning, -⟩ := hnew.node
    rcases List.mem_append.mp hop' with hold | hself
    · exact hsettled op' hold hwork
    · obtain rfl := List.mem_singleton.mp hself
      rw [show record.id = w.id from hwork, hw] at hnode
      obtain rfl := Option.some.inj hnode
      rw [hdone] at hrunning
      cases hrunning
  · rcases Grown.mem hwrote.operations hop' with ⟨op, hop, -, hmoved⟩ | hnew
    · have hlater := hmoved.later
      have hold := hsettled op hop (hlater.kept.work.symm.trans hwork)
      rw [hlater.state (by simp [hold])]
      exact hold
    · exact hnew.elim

/-- A terminal record that is moved on leaves the graph. -/
theorem exec_leaves_graph (hdead : ¬ call.BindsLive) (h : call.exec db = .ok db') : ¬ db.Graphed db' := by
  intro hgraph
  cases call with
  | bindContract record c nextPhase context operation =>
      cases nextPhase with
      | none => exact hdead trivial
      | some phase =>
          have hterminal : record.status.terminal = true := by simpa [BindsLive] using hdead
          simp only [exec] at h
          obtain ⟨previous, row, mid, -, hrow, hrev, -, -, -, -, -, -, -, -, -, rfl, hconsume⟩ :=
            DB.bindContract_ok h
          obtain ⟨row', hrow', hlater⟩ := hrecords record (List.mem_singleton.mpr rfl)
          obtain rfl := Option.some.inj (hrow.symm.trans hrow')
          have hstatus : row.status = record.status := by rw [hlater.current hrev]
          have hself := find_modify_self db.works record.id
            (DB.bound c.identity (some phase) (context.getD record.context)) (DB.bound_id _ _ _)
          rw [hrow] at hself
          have hwritten : db'.works.find record.id =
              some (DB.bound c.identity (some phase) (context.getD record.context) row) := by
            rw [DB.consumeAll_works hconsume]
            exact hself
          rcases hgraph.edge record.id row _ hrow hwritten with hsame | hedge
          · rw [hstatus] at hsame
            rw [← hsame] at hterminal
            cases hterminal
          · rw [hstatus, Status.transitions_terminal hterminal] at hedge
            cases hedge
  | _ => exact hdead trivial

end Call

/-! ### Runs of the store -/

namespace DB.Graphed

theorem refl (db : DB) : db.Graphed db where
  edge id w w' hw hw' := by
    obtain rfl := Option.some.inj (hw.symm.trans hw')
    exact Or.inl rfl
  completed id w w' hw hw' hopen hdone := by
    obtain rfl := Option.some.inj (hw.symm.trans hw')
    exact absurd hdone hopen
  created id w' hnone hw' := by
    rw [hnone] at hw'
    cases hw'

end DB.Graphed

namespace History

variable {s t : History} {trace : List (Taken History Call)} {call : Call}

theorem records_later (h : storeSystem.Reachable s) (hread : ∀ w ∈ call.records, s.Read w) :
    ∀ w ∈ call.records, ∃ row, s.now.works.find w.id = some row ∧ Work.Later w row :=
  fun w hw => (hread w hw).later h

theorem step_graphed (h : storeSystem.Reachable s) (hlive : call.BindsLive)
    (hstep : storeSystem.step s call t) : s.now.Graphed t.now := by
  obtain ⟨hread, -, rfl⟩ := hstep
  simp only [Call.after]
  split
  · next hexec => exact Call.exec_graphed (records_later h hread) hlive hexec
  · exact DB.Graphed.refl _

/-- A work item that is completed or cancelled stays so. -/
theorem terminal_lasts (h : storeSystem.Run trace s)
    (hlive : System.Meets (fun _ call _ => call.BindsLive) trace) {e : Taken History Call} (he : e ∈ trace)
    {w : Work} (hw : e.after.now.works.find w.id = some w) (hterminal : w.status.terminal = true) :
    ∃ w', s.now.works.find w.id = some w' ∧ w'.status = w.status := by
  refine (h.lasts_of_meets (P := fun s => storeSystem.Reachable s ∧
    ∃ w', s.now.works.find w.id = some w' ∧ w'.status = w.status) ?_ hlive he ?_).2
  · rintro s call t ⟨hreach, w', hw', hstatus⟩ hcall hstep
    obtain ⟨w'', hw'', -⟩ := (step_advanced hstep).works _ _ hw'
    refine ⟨hreach.next hstep, w'', hw'', ?_⟩
    rcases (step_graphed hreach hcall hstep).edge _ _ _ hw' hw'' with hsame | hedge
    · exact hsame.trans hstatus
    · rw [hstatus, Status.transitions_terminal hterminal] at hedge
      cases hedge
  · obtain ⟨hreach, hstep⟩ := h.taken he
    exact ⟨hreach.next hstep, w, hw, rfl⟩

/-- A completed work item has no unresolved operation, whatever is reserved after its completion. -/
theorem completed_settled (h : storeSystem.Reachable s) :
    ∀ w ∈ s.now.works.rows, w.status = .completed →
      ∀ op ∈ s.now.operations.rows, op.work = w.id → op.state.unresolved = false := by
  suffices hall : storeSystem.Reachable s ∧ ∀ w ∈ s.now.works.rows, w.status = .completed →
      ∀ op ∈ s.now.operations.rows, op.work = w.id → op.state.unresolved = false from hall.2
  refine h.invariant (I := fun s => storeSystem.Reachable s ∧ ∀ w ∈ s.now.works.rows,
    w.status = .completed → ∀ op ∈ s.now.operations.rows, op.work = w.id → op.state.unresolved = false) ?_ ?_
  · rintro _ rfl
    exact ⟨⟨[], .start rfl⟩, fun _ hw => absurd hw List.not_mem_nil⟩
  · rintro s call t ⟨hreach, hsettled⟩ hstep
    refine ⟨hreach.next hstep, ?_⟩
    obtain ⟨hread, -, rfl⟩ := hstep
    simp only [Call.after]
    split
    · next db hexec =>
        intro w' hw' hdone op hop hwork
        have hlater := records_later hreach hread
        have hrows := Call.exec_rows (fun w hw => (hlater w hw).imp fun _ hrow => hrow.1) hexec
        rcases Grown.mem hrows hw' with ⟨w, hw, hid, -⟩ | ⟨hadds, -⟩
        · have hfind : db.works.find w.id = some w' := by
            rw [show w.id = w'.id from hid]
            exact find_of_mem hw'
          by_cases hold : w.status = .completed
          · exact Call.exec_settled hexec (find_of_mem hw) hold (hsettled w hw hold) op hop
              (hwork.trans hid.symm)
          · exact (Call.exec_completed hlater hexec (find_of_mem hw) hfind hold hdone).1 op hop hwork
        · rw [Call.adds_ready hadds] at hdone
          cases hdone
    · exact hsettled

end History

/-- **The transition graph.** In every run of the store that moves no terminal record on by
`bind_contract`: every change of a status is an edge of `TRANSITIONS`, a work item becomes completed only
once its operations (for a root, those of its workflow) are resolved, and a completed or cancelled work
item stays so. In every run, a completed work item has no unresolved operation; a terminal record that is
moved on, and accepted, breaks the graph. -/
theorem status_graph {trace : List (Taken History Call)} {s : History} (h : storeSystem.Run trace s) :
    (System.Meets (fun _ call _ => call.BindsLive) trace →
      (∀ e ∈ trace, e.before.now.Graphed e.after.now) ∧
      ∀ e ∈ trace, ∀ w ∈ e.after.now.works.rows, w.status.terminal = true →
        ∃ w' ∈ s.now.works.rows, w'.id = w.id ∧ w'.status = w.status) ∧
    (∀ w ∈ s.now.works.rows, w.status = .completed →
      ∀ op ∈ s.now.operations.rows, op.work = w.id → op.state.unresolved = false) ∧
    ∀ e ∈ trace, ¬ e.label.BindsLive → (∃ db, e.label.exec e.before.now = .ok db) →
      ¬ e.before.now.Graphed e.after.now := by
  refine ⟨fun hlive => ⟨fun e he => ?_, fun e he w hw hterminal => ?_⟩,
    History.completed_settled h.reachable, ?_⟩
  · obtain ⟨hreach, hstep⟩ := h.taken he
    exact History.step_graphed hreach (hlive e he) hstep
  · obtain ⟨w', hw', hstatus⟩ := History.terminal_lasts h hlive he (find_of_mem hw) hterminal
    exact ⟨w', (find_some hw').1, find_key hw', hstatus⟩
  · rintro e he hdead ⟨db, hexec⟩
    obtain ⟨hreach, hread, -, hafter⟩ := h.taken he
    have hnow : e.after.now = db := by
      rw [hafter]
      simp only [Call.after, hexec]
    rw [hnow]
    exact Call.exec_leaves_graph (History.records_later hreach hread) hdead hexec

theorem status_graph_firstCalls :
    ((History.origin.replay firstCalls).now.works.find "work").map (·.status) = some .running ∧
      ∀ e ∈ History.origin.taken firstCalls, e.before.now.Graphed e.after.now := by
  refine ⟨by decide, ((status_graph firstCalls_run).1 ?_).1⟩
  intro e he
  simp only [firstCalls, History.taken, List.mem_cons, List.not_mem_nil, or_false] at he
  rcases he with rfl | rfl | rfl <;> trivial

/-- A fix is created and cancelled; its contract is then completed with the record read last. -/
def revivingCalls : List Call :=
  [.createWorkflow "flow" "work" .fix "repair" (.initial ∅ "base") {} {} [] [] (some 2) 2,
    .transition (fixRecord .ready 0) .cancelled {} none [],
    .bindContract (fixRecord .cancelled 1)
      { workflowId := "flow", workId := "work", mode := .fix, goal := "repair", source := .initial ∅ "base",
        scope := [["src"]], goal_given := repair_given, scope_relative := by decide }
      (some .implement) none none]

theorem revivingCalls_run :
    storeSystem.Run (History.origin.taken revivingCalls) (History.origin.replay revivingCalls) := by
  refine History.run_calls ?_
  simp only [History.Callable, revivingCalls, Call.records, History.contexts, History.Read]
  decide

theorem cancelled_work_revived :
    ¬ ∀ (trace : List (Taken History Call)) (s : History), storeSystem.Run trace s →
      ∀ e ∈ trace, ∀ w w', e.before.now.works.find "work" = some w →
        e.after.now.works.find "work" = some w' → w.status = .cancelled → w'.status = .cancelled := by
  intro hclaim
  have hlast := hclaim _ _ revivingCalls_run ⟨_, _, _⟩ (List.mem_cons_of_mem _
    (List.mem_cons_of_mem _ List.mem_cons_self)) _ _ rfl rfl rfl
  revert hlast
  decide

end AutoAgents
