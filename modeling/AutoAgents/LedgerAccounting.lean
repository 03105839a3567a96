import AutoAgents.StoreRows

/-! The call counters over all runs of the store: both count the model operations that were ever
reserved, stay within their limits, and are never set back. -/

namespace AutoAgents

open Base Base.Table

namespace DB

/-- The model operations of a work item. -/
def modelCalls (db : DB) (work : String) : Nat :=
  db.operations.total fun op => if op.work = work ∧ op.model = true then 1 else 0

/-- The calls of all work items of a workflow. -/
def workCalls (db : DB) (workflow : String) : Nat :=
  db.works.total fun w => if w.workflow = workflow then w.calls else 0

/-- The counters and the ledger agree, within the limits; every operation belongs to a work item, and
every work item to a workflow. -/
structure Accounted (db : DB) : Prop where
  works : ∀ w ∈ db.works.rows, w.calls = db.modelCalls w.id ∧ w.calls ≤ w.maxCalls
  workflows : ∀ wf ∈ db.workflows.rows, wf.calls = db.workCalls wf.id ∧
    ∀ limit ∈ wf.maxCalls, wf.calls ≤ limit
  owned : ∀ op ∈ db.operations.rows, ∃ w, db.works.find op.work = some w
  rooted : ∀ w ∈ db.works.rows, ∃ wf, db.workflows.find w.workflow = some wf

variable {db db' : DB}

theorem accounted_empty : Accounted .empty where
  works _ h := absurd h List.not_mem_nil
  workflows _ h := absurd h List.not_mem_nil
  owned _ h := absurd h List.not_mem_nil
  rooted _ h := absurd h List.not_mem_nil

/-- A work item that is not there has no operations. -/
theorem Accounted.modelCalls_absent (h : Accounted db) {work : String}
    (habsent : db.works.find work = none) : db.modelCalls work = 0 := by
  refine List.sum_eq_zero fun n hn => ?_
  obtain ⟨op, hop, rfl⟩ := List.mem_map.mp hn
  refine if_neg ?_
  rintro ⟨hwork, -⟩
  obtain ⟨w, hw⟩ := h.owned op hop
  rw [hwork, habsent] at hw
  cases hw

/-- A workflow that is not there has no work items. -/
theorem Accounted.workCalls_absent (h : Accounted db) {workflow : String}
    (habsent : db.workflows.find workflow = none) : db.workCalls workflow = 0 := by
  refine List.sum_eq_zero fun n hn => ?_
  obtain ⟨w, hw, rfl⟩ := List.mem_map.mp hn
  refine if_neg fun hworkflow => ?_
  obtain ⟨wf, hwf⟩ := h.rooted w hw
  rw [hworkflow, habsent] at hwf
  cases hwf

/-- No operation is added or changes its owner: the counts stay. -/
theorem Wrote.modelCalls {M : Operation → Operation → Prop} (h : Wrote M db db')
    (hM : ∀ op op', M op op' → Operation.Kept op op') (work : String) :
    db'.modelCalls work = db.modelCalls work :=
  h.operations.total
    (fun op op' hmove => by rw [(hM op op' hmove).work, (hM op op' hmove).model])
    fun _ hfalse => hfalse.elim

theorem Wrote.workCalls {M : Operation → Operation → Prop} (h : Wrote M db db') (workflow : String) :
    db'.workCalls workflow = db.workCalls workflow := by
  refine h.works.total (fun w w' hrewritten => ?_) fun w hzero => ?_
  · rw [hrewritten.workflow, hrewritten.calls]
  · rw [hzero, ite_self]

theorem Accounted.wrote {M : Operation → Operation → Prop} (h : Accounted db) (hwrote : Wrote M db db')
    (hM : ∀ op op', M op op' → Operation.Kept op op') : Accounted db' where
  works w hw := by
    rw [hwrote.modelCalls hM]
    rcases hwrote.works.mem_fresh hw with ⟨old, hold, -, hrewritten⟩ | ⟨hzero, hfresh⟩
    · rw [hrewritten.calls, hrewritten.id, hrewritten.maxCalls]
      exact h.works old hold
    · rw [hzero, h.modelCalls_absent hfresh]
      exact ⟨rfl, Nat.zero_le _⟩
  workflows wf hwf := by
    rw [hwrote.workCalls]
    rcases hwrote.workflows.mem_fresh hwf with ⟨old, hold, -, rfl⟩ | ⟨hzero, hfresh⟩
    · exact h.workflows _ hold
    · rw [hzero, h.workCalls_absent hfresh]
      exact ⟨rfl, fun _ _ => Nat.zero_le _⟩
  owned op hop := by
    rcases hwrote.operations.mem hop with ⟨old, hold, -, hmove⟩ | hfalse
    · obtain ⟨w, hw⟩ := h.owned old hold
      obtain ⟨w', hw', -⟩ := hwrote.works.find hw
      rw [(hM _ _ hmove).work]
      exact ⟨w', hw'⟩
    · exact hfalse.elim
  rooted w hw := by
    rcases hwrote.rooted w hw with ⟨old, hold, hworkflow⟩ | hwf
    · obtain ⟨wf, hwf⟩ := h.rooted old hold
      obtain ⟨wf', hwf', -⟩ := hwrote.workflows.find hwf
      rw [← hworkflow]
      exact ⟨wf', hwf'⟩
    · exact hwf

theorem modelCalls_charged (work : Work) (op : Operation) (hfresh : db.operations.find op.id = none)
    (id : String) : (db.charged work op hfresh).modelCalls id =
      db.modelCalls id + if op.work = id ∧ op.model = true then 1 else 0 :=
  total_insert _ _ hfresh _

/-- One more call on the work item, in the one workflow that owns it. -/
theorem workCalls_charged {work : Work} {node : Work} (op : Operation)
    (hfresh : db.operations.find op.id = none) (hnode : db.works.find work.id = some node)
    (workflow : String) : (db.charged work op hfresh).workCalls workflow =
      db.workCalls workflow + if node.workflow = workflow then op.model.toNat else 0 := by
  have h := total_modify db.works (chargeWork op.model) (chargeWork_id op.model)
    (fun w => if w.workflow = workflow then w.calls else 0) hnode
  have hsame : (chargeWork op.model node).workflow = node.workflow := rfl
  have hcalls : (chargeWork op.model node).calls = node.calls + op.model.toNat := rfl
  change (db.charged work op hfresh).workCalls workflow + _ = db.workCalls workflow + _ at h
  rw [hsame, hcalls] at h
  split at h
  · next hin =>
      rw [if_pos hin]
      omega
  · next hout =>
      rw [if_neg hout]
      omega

/-- A reservation charges the ledger, the work item and its workflow together, after it has found
both below their limits. -/
theorem Accounted.reserves (h : Accounted db) {work : Work} {kind : Kind} {ordinal : Nat}
    {inputs : OperationInputs} {model : Bool} {provider : String}
    (hnew : Reserves db db' work kind ordinal inputs model provider)
    (hworkflow : ∀ row, db.works.find work.id = some row → row.workflow = work.workflow) :
    Accounted db' := by
  obtain ⟨node, hnode, -, -, hlimit⟩ := hnew.node
  obtain ⟨owner, howner, hceiling⟩ := hnew.workflow
  obtain ⟨hfresh, rfl⟩ := hnew.writes
  obtain ⟨hmem, hid⟩ := find_some hnode
  obtain ⟨hownerMem, hownerId⟩ := find_some howner
  have hnodeWorkflow := hworkflow node hnode
  refine ⟨fun w hw => ?_, fun wf hwf => ?_, fun op hop => ?_, fun w hw => ?_⟩
  · rw [modelCalls_charged]
    rcases (mem_rows_modify (chargeWork_id _)).mp hw with ⟨row, hrow, rfl⟩ | ⟨hold, hne⟩
    · obtain rfl := Option.some.inj (hnode.symm.trans hrow)
      obtain ⟨hcount, hle⟩ := h.works node hmem
      cases model with
      | true =>
          have := hlimit rfl
          simp only [chargeWork, reserved, hid, Bool.toNat_true, and_self, if_true] at hcount ⊢
          omega
      | false => simpa [reserved, chargeWork] using h.works node hmem
    · have hother : (reserved work kind ordinal inputs model provider).work ≠ w.id := Ne.symm hne
      rw [if_neg fun hboth => hother hboth.1]
      exact h.works w hold
  · rw [workCalls_charged _ hfresh hnode]
    rcases (mem_rows_modify (chargeWorkflow_id _)).mp hwf with ⟨row, hrow, rfl⟩ | ⟨hold, hne⟩
    · obtain rfl := Option.some.inj (howner.symm.trans hrow)
      obtain ⟨hcount, hle⟩ := h.workflows owner hownerMem
      have hsame : node.workflow = owner.id := hnodeWorkflow.trans hownerId.symm
      refine ⟨?_, fun limit hmem => ?_⟩
      · simp only [chargeWorkflow, hsame, if_true]
        omega
      · cases model with
        | true => exact hceiling rfl limit hmem
        | false => exact hle limit hmem
    · have hother : node.workflow ≠ wf.id := hnodeWorkflow ▸ Ne.symm hne
      rw [if_neg hother]
      exact h.workflows wf hold
  · rcases (charged_operations work _ hfresh).mem hop with ⟨old, hold, -, rfl⟩ | rfl
    · obtain ⟨w, hw⟩ := h.owned old hold
      obtain ⟨w', hw', -⟩ := (charged_works work _ hfresh).find hw
      exact ⟨w', hw'⟩
    · obtain ⟨node', hnode', -⟩ := (charged_works work _ hfresh).find hnode
      exact ⟨node', hnode'⟩
  · obtain ⟨old, hold, -, hlater⟩ | hfalse := (charged_works work _ hfresh).mem hw
    · obtain ⟨wf, hwf⟩ := h.rooted old hold
      obtain ⟨wf', hwf', -⟩ := (charged_workflows work _ hfresh).find hwf
      rw [hlater.workflow]
      exact ⟨wf', hwf'⟩
    · exact hfalse.elim

end DB

namespace History

variable {s t : History} {trace : List (Taken History Call)}

theorem accounted (h : storeSystem.Reachable s) : s.now.Accounted := by
  obtain ⟨trace, hrun⟩ := h
  induction hrun with
  | start hs =>
      obtain rfl := hs
      exact DB.accounted_empty
  | @step trace s t call hrun hstep ih =>
      obtain ⟨hread, -, rfl⟩ := hstep
      show (call.after s.now).Accounted
      unfold Call.after
      split
      · next db' hok =>
          rcases Call.exec_ok hok with ⟨work, kind, ordinal, inputs, model, provider, rfl, hnew⟩ | hwrote
          · refine ih.reserves hnew fun row hrow => ?_
            obtain ⟨row', hrow', hlater⟩ := (hread work (List.mem_singleton.mpr rfl)).later ⟨_, hrun⟩
            obtain rfl := Option.some.inj (hrow.symm.trans hrow')
            exact hlater.workflow
          · exact ih.wrote hwrote fun _ _ hmove => hmove.later.kept
      · exact ih

end History

/-- **Call accounting.** After every run of the store: the calls of a work item are its model
operations, within its limit; the calls of a workflow are those of its work items, within its limit
when it has one; and since any earlier moment of the run no counter has decreased and no limit has
changed. -/
theorem call_accounting {trace : List (Taken History Call)} {s : History}
    (h : storeSystem.Run trace s) :
    (∀ w ∈ s.now.works.rows, w.calls = s.now.modelCalls w.id ∧ w.calls ≤ w.maxCalls) ∧
    (∀ wf ∈ s.now.workflows.rows, wf.calls = s.now.workCalls wf.id ∧
      ∀ limit ∈ wf.maxCalls, wf.calls ≤ limit) ∧
    (∀ e ∈ trace, ∀ w ∈ e.after.now.works.rows, ∃ w' ∈ s.now.works.rows,
      w'.id = w.id ∧ w.calls ≤ w'.calls ∧ w'.maxCalls = w.maxCalls) ∧
    (∀ e ∈ trace, ∀ wf ∈ e.after.now.workflows.rows, ∃ wf' ∈ s.now.workflows.rows,
      wf'.id = wf.id ∧ wf.calls ≤ wf'.calls ∧ wf'.maxCalls = wf.maxCalls) := by
  have haccounted := History.accounted h.reachable
  have hadvanced : ∀ e ∈ trace, DB.Advanced e.after.now s.now := fun e he =>
    h.lasts (P := DB.Advanced e.after.now ∘ History.now)
      (fun _ _ _ hold hstep => hold.trans (History.step_advanced hstep)) he (DB.Advanced.refl _)
  refine ⟨haccounted.works, haccounted.workflows, fun e he w hw => ?_, fun e he wf hwf => ?_⟩
  · obtain ⟨w', hw', hlater⟩ := (hadvanced e he).works _ _ (find_of_mem hw)
    exact ⟨w', (find_some hw').1, hlater.id, hlater.calls, hlater.maxCalls⟩
  · obtain ⟨wf', hwf', hlater⟩ := (hadvanced e he).workflows _ _ (find_of_mem hwf)
    exact ⟨wf', (find_some hwf').1, hlater.id, hlater.calls, hlater.maxCalls⟩

theorem call_accounting_firstCalls :
    (∃ w ∈ (History.origin.replay firstCalls).now.works.rows, w.calls = 1) ∧
      ∀ w ∈ (History.origin.replay firstCalls).now.works.rows,
        w.calls = (History.origin.replay firstCalls).now.modelCalls w.id ∧ w.calls ≤ w.maxCalls :=
  ⟨by decide, (call_accounting firstCalls_run).1⟩

end AutoAgents
