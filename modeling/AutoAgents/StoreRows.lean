import AutoAgents.StoreCalls

/-! The work rows a call writes: what becomes of a row that is there, and which rows are new. -/

namespace AutoAgents

open Base Base.Table
open Git (Path Commit)

namespace DB

/-- The row of a planned task. -/
def taskWork (c : Contract) (parent : String) (task : Task) : Work :=
  { newWork c (some parent) .implement 15 with context := { taskId := some task.taskId } }

end DB

namespace Call

/-- The row has the revision of the record that was read, and may take the new status. -/
def Fenced (record : Work) (status : Status) (w : Work) : Prop :=
  w.id = record.id ∧ w.revision = record.revision ∧
    (status = w.status ∨ status ∈ w.status.transitions)

/-- What a call may do to a row that is there. -/
def Writes : Call → Work → Work → Prop
  | transition work status changes _ _, w, w' =>
      w = w' ∨ Fenced work status w ∧ w' = DB.changed status changes w
  | child parent work .., w, w' =>
      w = w' ∨ Fenced parent .waiting w ∧ w' = DB.changed .waiting
        { context := some { parent.context with child := some work, waitingFor := some .child } } w
  | batch parent tasks _, w, w' =>
      w = w' ∨ Fenced parent .waiting w ∧ w' = DB.changed .waiting
        { context := some { parent.context with
            children := tasks.map Prod.fst, waitingFor := some .children } } w
  | bindContract work c nextPhase context _, w, w' =>
      w = w' ∨ w.id = work.id ∧ w.revision = work.revision ∧
        work.phase ∈ [.classify, .plan, .providerResearch] ∧
        w' = DB.bound c.identity nextPhase (context.getD work.context) w
  | reserve _ _ _ _ model _, w, w' => w = w' ∨ w' = DB.chargeWork model w
  | _, w, w' => w = w'

/-- The rows a call may add. -/
def Adds (db : DB) : Call → Work → Prop
  | createWorkflow workflow work mode goal source authorization inputs scope checks _ nodeLimit, w =>
      ∃ c, Contract.build workflow work mode goal source authorization scope checks inputs [] = .ok c ∧
        w = DB.newWork c none (DB.rootPhase mode) nodeLimit
  | child parent work mode goal source inputs scope checks limit _, w =>
      ∃ pc c, db.contracts.find parent.contract = some pc ∧
        Contract.build parent.workflow work mode goal source pc.authorization scope checks inputs
          pc.identity = .ok c ∧
        w = DB.newWork c (some parent.id) (DB.childPhase mode) limit
  | batch parent tasks source, w =>
      ∃ pc c work task checks, db.contracts.find parent.contract = some pc ∧ (work, task) ∈ tasks ∧
        task.checks.mapM DB.readSpec = .ok checks ∧
        Contract.build parent.workflow work .fix task.goal source pc.authorization task.paths checks
          { plannedTask := some task.taskId, persistenceChange := task.persistenceChange } pc.identity =
          .ok c ∧
        w = DB.taskWork c parent.id task
  | addon parent identity goal source scope inputs phase, w =>
      ∃ pc c, db.contracts.find parent.contract = some pc ∧
        Contract.build parent.workflow identity .run goal source pc.authorization scope [] inputs
          pc.identity = .ok c ∧
        w = DB.newWork c (some parent.id) phase parent.maxCalls
  | _, _ => False

end Call

namespace DB

variable {db db' : DB}

/-- Old rows have moved by `W`; new rows are of kind `N`, under identities that were free. -/
def Rows (N : Work → Prop) (W : Work → Work → Prop) (db db' : DB) : Prop :=
  Grown (fun w => N w ∧ db.works.find w.id = none) W db.works db'.works

theorem rows_of_eq {N : Work → Prop} {W : Work → Work → Prop} (hW : ∀ w, W w w)
    (h : db'.works = db.works) : Rows N W db db' := by
  unfold Rows
  rw [h]
  exact Grown.refl hW _

theorem insertWork_rows {N : Work → Prop} {c : Contract} {parent : Option String} {phase : Phase}
    {limit : Nat} (h : db.insertWork c parent phase limit = .ok db')
    (hN : N (newWork c parent phase limit)) : Rows N Eq db db' := by
  obtain ⟨-, hfresh, rfl⟩ := insertWork_ok h
  exact Grown.insert (fun w => N w ∧ db.works.find w.id = none) (fun _ => rfl) ⟨hN, hfresh⟩ hfresh

/-- Insertions, and then one fenced update of a row that was there before. -/
theorem rows_transitionRow {N : Work → Prop} {mid : DB} {record : Work} {status : Status}
    {changes : Changes} (hins : Rows N Eq db mid)
    (hrecord : ∃ row, db.works.find record.id = some row)
    (h : mid.transitionRow record status changes = .ok db') :
    Rows N (fun w w' => w = w' ∨ Call.Fenced record status w ∧ w' = changed status changes w) db
      db' := by
  obtain ⟨current, hcurrent, hrev, hallowed, -, rfl⟩ := transitionRow_ok h
  have hmove : Grown (fun w => N w ∧ db.works.find w.id = none)
      (fun w w' => w = w' ∨ Call.Fenced record status w ∧ w' = changed status changes w) mid.works
      (mid.works.modify record.id (changed status changes) fun _ => rfl) := by
    refine Grown.modify record.id (changed_id status changes) (fun _ => Or.inl rfl) fun w hw => ?_
    obtain rfl := Option.some.inj (hcurrent.symm.trans hw)
    exact Or.inr ⟨⟨find_key hcurrent, hrev, hallowed⟩, rfl⟩
  refine Grown.comp ?_ ?_ hins hmove
  · rintro a _ c rfl hmoved
    exact hmoved
  · -- A new row is not the one that moves: its identity was free, and the record's is not.
    rintro a b ⟨hN, hfree⟩ hmoved
    rcases hmoved with rfl | ⟨⟨hid, -, -⟩, -⟩
    · exact ⟨hN, hfree⟩
    · obtain ⟨row, hrow⟩ := hrecord
      rw [hid, hrow] at hfree
      cases hfree

theorem consume_works {identity : OperationId} (h : db.consume identity = .ok db') :
    db'.works = db.works := by
  obtain ⟨op, -, -, rfl⟩ := consume_ok h
  rfl

theorem consumeAll_works {identities : List OperationId}
    (h : identities.foldlM consume db = .ok db') : db'.works = db.works :=
  foldlM_keeps (fun d => d.works = db.works) (fun _ _ _ hd hstep => (consume_works hstep).trans hd) rfl
    h

theorem Rows.consumeAll {N : Work → Prop} {W : Work → Work → Prop} {mid : DB}
    {identities : List OperationId} (hrows : Rows N W db mid)
    (h : identities.foldlM consume mid = .ok db') : Rows N W db db' := by
  unfold Rows
  rw [consumeAll_works h]
  exact hrows

theorem batchTask_rows {N : Work → Prop} {parent : Work} {pc : Contract} {source : Commit}
    {item : String × Task} (h : batchTask parent pc source db item = .ok db')
    (hN : ∀ c checks, item.2.checks.mapM readSpec = .ok checks →
      Contract.build parent.workflow item.1 .fix item.2.goal source pc.authorization item.2.paths checks
        { plannedTask := some item.2.taskId, persistenceChange := item.2.persistenceChange }
        pc.identity = .ok c → N (taskWork c parent.id item.2)) :
    Rows N Eq db db' := by
  obtain ⟨work, task⟩ := item
  simp only [batchTask, bind_ok, pure_ok] at h
  obtain ⟨checks, hchecks, c, hbuild, inserted, hins, rfl⟩ := h
  obtain ⟨-, hfresh, rfl⟩ := insertWork_ok hins
  have hid : work = (newWork c (some parent.id) .implement 15).id :=
    (Contract.build_eq_ok hbuild).2.1.symm
  have hnew := hN c checks hchecks hbuild
  have hrow : Rows N Eq db { db with works := db.works.insert (taskWork c parent.id task) hfresh } :=
    Grown.insert (fun w => N w ∧ db.works.find w.id = none) (fun _ => rfl) ⟨hnew, hfresh⟩ hfresh
  simp only [hid, modify_insert]
  exact hrow

theorem batchTasks_rows {N : Work → Prop} {parent : Work} {pc : Contract} {source : Commit}
    {tasks : List (String × Task)} (h : tasks.foldlM (batchTask parent pc source) db = .ok db')
    (hN : ∀ item ∈ tasks, ∀ c checks, item.2.checks.mapM readSpec = .ok checks →
      Contract.build parent.workflow item.1 .fix item.2.goal source pc.authorization item.2.paths checks
        { plannedTask := some item.2.taskId, persistenceChange := item.2.persistenceChange }
        pc.identity = .ok c → N (taskWork c parent.id item.2)) :
    Rows N Eq db db' := by
  induction tasks generalizing db with
  | nil =>
      rw [List.foldlM_nil, pure_ok] at h
      subst h
      exact rows_of_eq (fun _ => rfl) rfl
  | cons item tasks ih =>
      rw [List.foldlM_cons, bind_ok] at h
      obtain ⟨mid, hmid, hrest⟩ := h
      have hfirst := batchTask_rows hmid (hN item List.mem_cons_self)
      have hlater := ih hrest fun item hitem => hN item (List.mem_cons_of_mem _ hitem)
      have hfree : ∀ w, N w ∧ mid.works.find w.id = none → N w ∧ db.works.find w.id = none := by
        rintro w ⟨hw, hmid⟩
        refine ⟨hw, ?_⟩
        cases hfind : db.works.find w.id with
        | none => rfl
        | some row =>
            obtain ⟨row', hrow', -⟩ := hfirst.find hfind
            rw [hmid] at hrow'
            cases hrow'
      refine Grown.trans (fun _ _ _ => Eq.trans) ?_ hfirst
        (hlater.mono hfree fun _ _ h => h)
      rintro a _ ha rfl
      exact ha

/-- The new row that `child` writes next to the row of the parent, whose record was current. -/
theorem child_found {parent : Work} {id goal : String} {mode : Mode} {source : Commit} {inputs : Inputs}
    {scope : List Path} {checks : List VerificationSpec} {limit : Nat} {operation : Option OperationId}
    (hparent : ∃ row, db.works.find parent.id = some row)
    (h : db.child parent id mode goal source inputs scope checks limit operation = .ok db') :
    ∃ (pc c : Contract) (row : Work), Contract.build parent.workflow id mode goal source pc.authorization scope
        checks inputs pc.identity = .ok c ∧
      db.works.find id = none ∧ db.works.find parent.id = some row ∧ row.revision = parent.revision ∧
      db'.works.find id = some (newWork c (some parent.id) (childPhase mode) limit) := by
  simp only [child, bind_ok, contract_eq_ok] at h
  obtain ⟨pc, -, c, hbuild, inserted, hins, moved, hmove, hconsume⟩ := h
  obtain ⟨-, hfresh, rfl⟩ := insertWork_ok hins
  obtain ⟨current, hcurrent, hrevision, -, -, rfl⟩ := transitionRow_ok hmove
  have hnew : (newWork c (some parent.id) (childPhase mode) limit).id = id := (Contract.build_eq_ok hbuild).2.1
  -- The parent is another row: the identity of the child was free.
  have hother : id ≠ parent.id := by
    rintro heq
    obtain ⟨row, hrow⟩ := hparent
    rw [hnew, heq, hrow] at hfresh
    cases hfresh
  have hself := find_insert_self db.works _ hfresh
  refine ⟨pc, c, current, hbuild, hnew ▸ hfresh, ?_, hrevision, ?_⟩
  · rw [← hcurrent, find_insert, if_neg]
    rw [hnew]
    exact hother
  · rw [consumeAll_works hconsume, ← hself, hnew]
    exact find_modify_ne _ _ (changed_id _ _) hother

theorem batchTask_found {parent : Work} {pc : Contract} {source : Commit} {item : String × Task}
    (h : batchTask parent pc source db item = .ok db') :
    ∃ c, c.inputs.plannedTask = some item.2.taskId ∧ db.works.find item.1 = none ∧
      db'.works.find item.1 = some (taskWork c parent.id item.2) := by
  obtain ⟨id, task⟩ := item
  simp only [batchTask, bind_ok, pure_ok] at h
  obtain ⟨checks, -, c, hbuild, inserted, hins, rfl⟩ := h
  obtain ⟨-, hfresh, rfl⟩ := insertWork_ok hins
  obtain ⟨-, hid, -, -, -, -, -, -, hinputs, -⟩ := Contract.build_eq_ok hbuild
  have hnew : (newWork c (some parent.id) .implement 15).id = id := hid
  refine ⟨c, by rw [hinputs], hnew ▸ hfresh, ?_⟩
  have hself := find_insert_self db.works _ hfresh
  rw [hnew] at hself
  rw [find_modify_self, hself]
  rfl

theorem batchTasks_found {parent : Work} {pc : Contract} {source : Commit} {tasks : List (String × Task)}
    (h : tasks.foldlM (batchTask parent pc source) db = .ok db') :
    (∀ item ∈ tasks, ∃ c, c.inputs.plannedTask = some item.2.taskId ∧ db.works.find item.1 = none ∧
      db'.works.find item.1 = some (taskWork c parent.id item.2)) ∧
    ∀ id w, db.works.find id = some w → db'.works.find id = some w := by
  induction tasks generalizing db with
  | nil =>
      rw [List.foldlM_nil, pure_ok] at h
      subst h
      exact ⟨fun _ hitem => absurd hitem List.not_mem_nil, fun _ _ hw => hw⟩
  | cons item tasks ih =>
      rw [List.foldlM_cons, bind_ok] at h
      obtain ⟨mid, hmid, hrest⟩ := h
      obtain ⟨hitems, hkept⟩ := ih hrest
      have hkeeps : ∀ id w, db.works.find id = some w → mid.works.find id = some w := by
        intro id w hw
        have hrows := batchTask_rows (N := fun _ => True) hmid fun _ _ _ _ => trivial
        obtain ⟨w', hw', rfl⟩ := hrows.find hw
        exact hw'
      refine ⟨fun item' hitem => ?_, fun id w hw => hkept id w (hkeeps id w hw)⟩
      rcases List.mem_cons.mp hitem with rfl | hitem
      · obtain ⟨c, hplanned, hfree, hfind⟩ := batchTask_found hmid
        exact ⟨c, hplanned, hfree, hkept _ _ hfind⟩
      · obtain ⟨c, hplanned, hfree, hfind⟩ := hitems item' hitem
        refine ⟨c, hplanned, ?_, hfind⟩
        cases hrow : db.works.find item'.1 with
        | none => rfl
        | some w =>
            rw [hkeeps _ _ hrow] at hfree
            cases hfree

/-- The new rows that `batch` writes next to the row of the parent, whose record was current. -/
theorem batch_found {parent : Work} {tasks : List (String × Task)} {source : Commit}
    (hparent : ∃ row, db.works.find parent.id = some row) (h : db.batch parent tasks source = .ok db') :
    (∃ row, db.works.find parent.id = some row ∧ row.revision = parent.revision) ∧
      ∀ item ∈ tasks, ∃ c, c.inputs.plannedTask = some item.2.taskId ∧
        db'.works.find item.1 = some (taskWork c parent.id item.2) := by
  simp only [batch, bind_ok, contract_eq_ok] at h
  obtain ⟨pc, -, mid, hfold, hmove⟩ := h
  obtain ⟨hitems, hkept⟩ := batchTasks_found hfold
  obtain ⟨current, hcurrent, hrevision, -, -, rfl⟩ := transitionRow_ok hmove
  obtain ⟨row, hrow⟩ := hparent
  obtain rfl := Option.some.inj ((hkept _ _ hrow).symm.trans hcurrent)
  refine ⟨⟨row, hrow, hrevision⟩, fun item hitem => ?_⟩
  obtain ⟨c, hplanned, hfree, hfind⟩ := hitems item hitem
  have hother : item.1 ≠ parent.id := by
    rintro heq
    rw [heq, hrow] at hfree
    cases hfree
  refine ⟨c, hplanned, ?_⟩
  rw [← hfind]
  exact find_modify_ne _ _ (changed_id _ _) hother

end DB

/-- What a call that succeeds has written, when the records it was given are rows. -/
theorem Call.exec_rows {call : Call} {db db' : DB}
    (hrecords : ∀ w ∈ call.records, ∃ row, db.works.find w.id = some row)
    (h : call.exec db = .ok db') : DB.Rows (call.Adds db) call.Writes db db' := by
  cases call with
  | createWorkflow workflow work mode goal source authorization inputs scope checks maxCalls nodeLimit =>
      simp only [exec, DB.createWorkflow, guard_ok, bind_ok] at h
      obtain ⟨-, c, hbuild, h⟩ := h
      split at h
      · cases h
      · have hN : Call.Adds db (.createWorkflow workflow work mode goal source authorization inputs scope
            checks maxCalls nodeLimit) (DB.newWork c none (DB.rootPhase mode) nodeLimit) :=
          ⟨c, hbuild, rfl⟩
        have hrows : DB.Rows _ Eq _ db' := DB.insertWork_rows h hN
        exact hrows
  | child parent work mode goal source inputs scope checks limit operation =>
      simp only [exec, DB.child, bind_ok, DB.contract_eq_ok] at h
      obtain ⟨pc, hpc, c, hbuild, inserted, hins, moved, hrow, hconsume⟩ := h
      have hN : Call.Adds db (.child parent work mode goal source inputs scope checks limit operation)
          (DB.newWork c (some parent.id) (DB.childPhase mode) limit) := ⟨pc, c, hpc, hbuild, rfl⟩
      have hnew := DB.insertWork_rows hins hN
      exact (DB.rows_transitionRow hnew (hrecords parent (List.mem_singleton.mpr rfl)) hrow).consumeAll
        hconsume
  | batch parent tasks source =>
      simp only [exec, DB.batch, bind_ok, DB.contract_eq_ok] at h
      obtain ⟨pc, hpc, mid, hfold, hrow⟩ := h
      have hnew : DB.Rows (Call.Adds db (.batch parent tasks source)) Eq db mid :=
        DB.batchTasks_rows hfold fun item hitem c checks hchecks hbuild =>
          ⟨pc, c, item.1, item.2, checks, hpc, hitem, hchecks, hbuild, rfl⟩
      exact DB.rows_transitionRow hnew (hrecords parent (List.mem_singleton.mpr rfl)) hrow
  | addon parent identity goal source scope inputs phase =>
      simp only [exec, DB.addon, bind_ok, DB.contract_eq_ok] at h
      obtain ⟨pc, hpc, c, hbuild, hins⟩ := h
      exact DB.insertWork_rows hins ⟨pc, c, hpc, hbuild, rfl⟩
  | transition work status changes operation operations =>
      obtain ⟨mid, hrow, hconsume⟩ := bind_ok.mp h
      have hsame : DB.Rows (Call.Adds db (.transition work status changes operation operations))
          Eq db db := DB.rows_of_eq (fun _ => rfl) rfl
      exact (DB.rows_transitionRow hsame (hrecords work (List.mem_singleton.mpr rfl)) hrow).consumeAll
        hconsume
  | bindContract work c nextPhase context operation =>
      obtain ⟨previous, row, mid, -, hrow, hrev, hphase, -, -, -, -, -, -, -, -, rfl, hconsume⟩ :=
        DB.bindContract_ok h
      refine DB.Rows.consumeAll ?_ hconsume
      refine Grown.modify work.id (DB.bound_id _ _ _) (fun _ => Or.inl rfl) fun w hw => ?_
      obtain rfl := Option.some.inj (hrow.symm.trans hw)
      exact Or.inr ⟨find_key hrow, hrev, hphase, rfl⟩
  | reserve work kind ordinal inputs model provider =>
      rcases Call.reserve_cases h with hnew | rfl
      · obtain ⟨hfresh, rfl⟩ := hnew.writes
        exact Grown.modify work.id (DB.chargeWork_id model) (fun _ => Or.inl rfl) fun _ _ => Or.inr rfl
      · exact DB.rows_of_eq (fun _ => Or.inl rfl) rfl
  | settle identity result state =>
      obtain ⟨-, row, -, -, rfl⟩ := DB.settle_ok h
      exact DB.rows_of_eq (fun _ => rfl) rfl
  | deriveReceipt identity result =>
      obtain ⟨row, -, -, -, rfl⟩ := DB.deriveReceipt_ok h
      exact DB.rows_of_eq (fun _ => rfl) rfl
  | consume identity => exact DB.rows_of_eq (fun _ => rfl) (DB.consume_works h)
  | event work data =>
      cases h
      exact DB.rows_of_eq (fun _ => rfl) rfl
  | orphanCalls =>
      cases h
      exact DB.rows_of_eq (fun _ => rfl) rfl
  | collect longResult longInputs =>
      cases h
      exact DB.rows_of_eq (fun _ => rfl) rfl
  | setUnassigned call =>
      cases h
      exact DB.rows_of_eq (fun _ => rfl) rfl

/-! ### What a call writes -/

namespace Call

/-- The calls on operations, which move no work item. -/
def onLedger : Call → Bool
  | .reserve .. | .settle .. | .deriveReceipt .. | .consume .. | .event .. | .orphanCalls | .collect ..
  | .setUnassigned .. => true
  | _ => false

/-- The row a call writes from the record it was given. -/
def rewritten : Call → Work → Work
  | transition _ status changes _ _, w => DB.changed status changes w
  | child parent work .., w => DB.changed .waiting
      { context := some { parent.context with child := some work, waitingFor := some .child } } w
  | batch parent tasks _, w => DB.changed .waiting
      { context := some { parent.context with
          children := tasks.map Prod.fst, waitingFor := some .children } } w
  | bindContract work c nextPhase context _, w =>
      DB.bound c.identity nextPhase (context.getD work.context) w
  | _, w => w

/-- When a call rewrites the row of a record. -/
def Admits : Call → Work → Prop
  | transition _ status _ _ _, w => status = w.status ∨ status ∈ w.status.transitions
  | child .., w | batch .., w => .waiting = w.status ∨ .waiting ∈ w.status.transitions
  | bindContract work .., _ => work.phase ∈ [.classify, .plan, .providerResearch]
  | _, _ => False

variable {call : Call} {w w' : Work}

theorem rewritten_calls (call : Call) (w : Work) (n : Nat) :
    call.rewritten { w with calls := n } = { call.rewritten w with calls := n } := by
  cases call with
  | bindContract work c nextPhase context operation => cases nextPhase <;> rfl
  | _ => rfl

/-- A row is left alone, charged, or rewritten from the record. -/
theorem writes_cases (h : call.Writes w w') :
    w' = w ∨ (∃ n, w' = { w with calls := n }) ∨
      ∃ record ∈ call.records, w.id = record.id ∧ w.revision = record.revision ∧ call.Admits w ∧
        w' = call.rewritten w := by
  cases call with
  | transition record status changes operation operations =>
      rcases h with rfl | ⟨⟨hid, hrev, hallowed⟩, rfl⟩
      · exact Or.inl rfl
      · exact Or.inr (Or.inr ⟨record, List.mem_singleton.mpr rfl, hid, hrev, hallowed, rfl⟩)
  | child parent work mode goal source inputs scope checks limit operation =>
      rcases h with rfl | ⟨⟨hid, hrev, hallowed⟩, rfl⟩
      · exact Or.inl rfl
      · exact Or.inr (Or.inr ⟨parent, List.mem_singleton.mpr rfl, hid, hrev, hallowed, rfl⟩)
  | batch parent tasks source =>
      rcases h with rfl | ⟨⟨hid, hrev, hallowed⟩, rfl⟩
      · exact Or.inl rfl
      · exact Or.inr (Or.inr ⟨parent, List.mem_singleton.mpr rfl, hid, hrev, hallowed, rfl⟩)
  | bindContract record c nextPhase context operation =>
      rcases h with rfl | ⟨hid, hrev, hphase, rfl⟩
      · exact Or.inl rfl
      · exact Or.inr (Or.inr ⟨record, List.mem_singleton.mpr rfl, hid, hrev, hphase, rfl⟩)
  | reserve record kind ordinal inputs model provider =>
      rcases h with rfl | rfl
      · exact Or.inl rfl
      · exact Or.inr (Or.inl ⟨_, rfl⟩)
  | _ => exact Or.inl h.symm

theorem admits_calls {n : Nat} (h : call.Admits { w with calls := n }) : call.Admits w := by
  cases call <;> exact h

/-- The calls on operations charge work items at most. -/
theorem ledger_rows {db db' : DB} (h : call.onLedger = true) (hexec : call.exec db = .ok db') :
    DB.Rows (fun _ => False) (fun w w' => w' = w ∨ ∃ n, w' = { w with calls := n }) db db' := by
  have hrecords : db' = db ∨ ∀ w ∈ call.records, ∃ row, db.works.find w.id = some row := by
    cases call with
    | reserve work kind ordinal inputs model provider =>
        rcases reserve_cases hexec with hnew | rfl
        · obtain ⟨node, hnode, -⟩ := hnew.node
          refine Or.inr fun w hw => ⟨node, ?_⟩
          obtain rfl := List.mem_singleton.mp hw
          exact hnode
        · exact Or.inl rfl
    | settle | deriveReceipt | consume | event | orphanCalls | collect | setUnassigned =>
        exact Or.inr fun w hw => absurd hw List.not_mem_nil
    | _ => cases h
  rcases hrecords with rfl | hrecords
  · exact DB.rows_of_eq (fun _ => Or.inl rfl) rfl
  refine (exec_rows hrecords hexec).mono (fun w hw => ⟨?_, hw.2⟩) fun w w' hmoved => ?_
  · cases call <;> first | exact absurd hw.1 id | cases h
  · rcases writes_cases hmoved with hsame | hcharged | ⟨record, -, -, -, hadmits, -⟩
    · exact Or.inl hsame
    · exact Or.inr hcharged
    · cases call <;> first | exact absurd hadmits id | cases h

end Call

end AutoAgents
