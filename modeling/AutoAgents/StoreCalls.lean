import AutoAgents.BaseRun
import AutoAgents.StoreEffects

/-! The store as a system. Every caller, whatever thread or process it runs in, acts on the database
by one of these calls, each a transaction; between its reads and its call anything may have happened,
so the records a call is given are rows of some earlier database. -/

namespace AutoAgents

open Base Base.Table
open Git (Path Commit)

/-- The writing methods of the store, with their arguments. -/
inductive Call
  | createWorkflow (workflow work : String) (mode : Mode) (goal : String) (source : Commit)
      (authorization : Authorization) (inputs : Inputs) (scope : List Path)
      (checks : List VerificationSpec) (maxCalls : Option Nat) (nodeLimit : Nat)
  | child (parent : Work) (work : String) (mode : Mode) (goal : String) (source : Commit)
      (inputs : Inputs) (scope : List Path) (checks : List VerificationSpec) (limit : Nat)
      (operation : Option OperationId)
  | batch (parent : Work) (tasks : List (String × Task)) (source : Commit)
  | addon (parent : Work) (identity goal : String) (source : Commit) (scope : List Path)
      (inputs : Inputs) (phase : Phase)
  | transition (work : Work) (status : Status) (changes : Changes) (operation : Option OperationId)
      (operations : List OperationId)
  | bindContract (work : Work) (contract : Contract) (nextPhase : Option Phase)
      (context : Option Context) (operation : Option OperationId)
  | reserve (work : Work) (kind : Kind) (ordinal : Nat) (inputs : OperationInputs) (model : Bool)
      (provider : String)
  | settle (identity : OperationId) (result : Receipt) (state : OperationState)
  | deriveReceipt (identity : OperationId) (result : Receipt)
  | consume (identity : OperationId)
  | event (work : String) (data : EventData)
  | orphanCalls
  | collect (longResult longInputs : Operation → Bool)
  | setUnassigned (call : UnassignedCall)

namespace Call

/-- The transaction of a call. -/
def exec (db : DB) : Call → Except ControlError DB
  | createWorkflow workflow work mode goal source authorization inputs scope checks maxCalls
      nodeLimit =>
      db.createWorkflow workflow work mode goal source authorization inputs scope checks maxCalls
        nodeLimit
  | child parent work mode goal source inputs scope checks limit operation =>
      db.child parent work mode goal source inputs scope checks limit operation
  | batch parent tasks source => db.batch parent tasks source
  | addon parent identity goal source scope inputs phase =>
      db.addon parent identity goal source scope inputs phase
  | transition work status changes operation operations =>
      db.transition work status changes operation operations
  | bindContract work contract nextPhase context operation =>
      db.bindContract work contract nextPhase context operation
  | reserve work kind ordinal inputs model provider =>
      (db.reserve work kind ordinal inputs model provider).map Prod.fst
  | settle identity result state => db.settle identity result state
  | deriveReceipt identity result => db.deriveReceipt identity result
  | consume identity => db.consume identity
  | event work data => .ok (db.event work data)
  | orphanCalls => .ok db.orphanCalls
  | collect longResult longInputs => .ok (db.collect longResult longInputs)
  | setUnassigned call => .ok (db.setUnassigned call)

/-- The database after a call; an error rolls its transaction back. -/
def after (db : DB) (call : Call) : DB :=
  match call.exec db with
  | .ok db' => db'
  | .error _ => db

/-- The work records a call relies on. -/
def records : Call → List Work
  | child parent .. => [parent]
  | batch parent .. => [parent]
  | addon parent .. => [parent]
  | transition work .. => [work]
  | bindContract work .. => [work]
  | reserve work .. => [work]
  | _ => []

/-- `reserve` answers `new`: its caller dispatches the effect. -/
def answersNew (db : DB) (work : Work) (kind : Kind) (ordinal : Nat) : Call → Prop
  | reserve w k n inputs model provider =>
      w = work ∧ k = kind ∧ n = ordinal ∧
        ∃ db', db.reserve work kind ordinal inputs model provider = .ok (db', true)
  | _ => False

/-- What a call may do to an operation that is there. -/
def Moves : Call → Operation → Operation → Prop
  | settle identity result state, op, op' =>
      op' = op ∨ op.id = identity ∧ op.state.unresolved = true ∧ state ≠ .dispatched ∧
        op' = { op with state, result := some result }
  | deriveReceipt identity result, op, op' =>
      op' = op ∨ op.id = identity ∧ op.state = .confirmed ∧ op.consumed = false ∧
        op' = { op with result := some result }
  | orphanCalls, op, op' => op' = DB.orphaned op
  | collect _ _, op, op' =>
      op' = op ∨ ∃ result inputs, op.consumed = true ∧ op' = { op with result, inputs }
  | _, op, op' => Operation.Consumes op op'

end Call

/-! ### What each call writes -/

namespace DB

variable {db db' : DB}

theorem createWorkflow_wrote {workflow work goal : String} {mode : Mode} {source : Commit}
    {authorization : Authorization} {inputs : Inputs} {scope : List Path}
    {checks : List VerificationSpec} {maxCalls : Option Nat} {nodeLimit : Nat}
    (h : db.createWorkflow workflow work mode goal source authorization inputs scope checks maxCalls
      nodeLimit = .ok db') : Wrote Eq db db' := by
  simp only [createWorkflow, guard_ok, bind_ok] at h
  obtain ⟨-, c, -, h⟩ := h
  split at h
  · cases h
  · next workflows hins =>
      obtain ⟨hfresh, rfl⟩ := insert?_eq_some.mp hins
      exact (Wrote.insertWorkflow db rfl hfresh).next (insertWork_wrote h)

theorem transition_wrote {work : Work} {status : Status} {changes : Changes}
    {operation : Option OperationId} {operations : List OperationId}
    (h : db.transition work status changes operation operations = .ok db') :
    Wrote Operation.Consumes db db' := by
  obtain ⟨mid, hrow, hconsume⟩ := bind_ok.mp h
  exact (transitionRow_wrote hrow).consumes.consuming (consumeAll_wrote hconsume)

theorem child_wrote {parent : Work} {work goal : String} {mode : Mode} {source : Commit}
    {inputs : Inputs} {scope : List Path} {checks : List VerificationSpec} {limit : Nat}
    {operation : Option OperationId}
    (h : db.child parent work mode goal source inputs scope checks limit operation = .ok db') :
    Wrote Operation.Consumes db db' := by
  simp only [child, bind_ok] at h
  obtain ⟨pc, -, c, -, inserted, hins, moved, hrow, hconsume⟩ := h
  have hwaiting : Wrote Eq db moved := (insertWork_wrote hins).next (transitionRow_wrote hrow)
  exact hwaiting.consumes.consuming (consumeAll_wrote hconsume)

theorem batchTask_wrote {parent : Work} {pc : Contract} {source : Commit} {item : String × Task}
    (h : batchTask parent pc source db item = .ok db') : Wrote Eq db db' := by
  obtain ⟨work, task⟩ := item
  simp only [batchTask, bind_ok, pure_ok] at h
  obtain ⟨checks, -, c, hbuild, inserted, hins, rfl⟩ := h
  obtain ⟨hroot, hfresh, rfl⟩ := insertWork_ok hins
  have hid : work = (newWork c (some parent.id) .implement 15).id := (Contract.build_eq_ok hbuild).2.1.symm
  simp only [hid, modify_insert]
  exact (Wrote.insertContract db c).next
    (Wrote.insertWork { db with contracts := db.contracts.insertOrIgnore c } rfl hroot _)

theorem batch_wrote {parent : Work} {tasks : List (String × Task)} {source : Commit}
    (h : db.batch parent tasks source = .ok db') : Wrote Eq db db' := by
  simp only [batch, bind_ok] at h
  obtain ⟨pc, -, mid, hfold, hrow⟩ := h
  have htasks : Wrote Eq db mid :=
    foldlM_keeps (Wrote Eq db)
      (fun _ _ _ hd hstep => hd.next (batchTask_wrote hstep))
      (Wrote.refl (fun _ => rfl) db) hfold
  exact htasks.next (transitionRow_wrote hrow)

theorem addon_wrote {parent : Work} {identity goal : String} {source : Commit} {scope : List Path}
    {inputs : Inputs} {phase : Phase}
    (h : db.addon parent identity goal source scope inputs phase = .ok db') : Wrote Eq db db' := by
  simp only [addon, bind_ok] at h
  obtain ⟨pc, -, c, -, hins⟩ := h
  exact insertWork_wrote hins

theorem bound_rewritten (identity : ContractId) (nextPhase : Option Phase) (context : Context)
    (w : Work) : Work.Rewritten w (bound identity nextPhase context w) := by
  cases nextPhase <;> exact ⟨rfl, rfl, rfl, rfl, rfl, rfl, Or.inr (Nat.lt_succ_self _)⟩

/-- Everything a completed binding has checked, and what it writes. -/
theorem bindContract_ok {work : Work} {c : Contract} {nextPhase : Option Phase}
    {context : Option Context} {operation : Option OperationId}
    (h : db.bindContract work c nextPhase context operation = .ok db') :
    ∃ previous row mid, db.contracts.find work.contract = some previous ∧
      db.works.find work.id = some row ∧ row.revision = work.revision ∧
      work.phase ∈ [.classify, .plan, .providerResearch] ∧
      (previous.checks ≠ [] → c.checks = previous.checks) ∧
      (previous.scope ≠ [] → c.scope = previous.scope) ∧
      c.workId = work.id ∧ c.workflowId = work.workflow ∧ c.mode = work.mode ∧
      c.source = previous.source ∧ c.inputs = previous.inputs ∧
      c.parentContract = previous.parentContract ∧
      mid = ({ db with
        contracts := db.contracts.insertOrIgnore c
        works := db.works.modify work.id (bound c.identity nextPhase (context.getD work.context))
          (bound_id _ _ _) }).event work.id (.contractBound c.identity) ∧
      (if nextPhase.isSome then operation.toList else []).foldlM consume mid = .ok db' := by
  simp only [bindContract, guard_ok, bind_ok, contract_eq_ok] at h
  obtain ⟨howner, previous, hprevious, hchecks, hscope, hfields, h⟩ := h
  split at h
  · cases h
  · next row hrow =>
      simp only [guard_ok] at h
      obtain ⟨hguard, h⟩ := h
      simp only [not_or, not_not, not_and, ne_eq] at howner hchecks hscope hfields hguard
      obtain ⟨hid, hworkflow, hmode⟩ := howner
      obtain ⟨-, hsource, -, hinputs, hparent⟩ := hfields
      refine ⟨previous, row, _, hprevious, hrow, hguard.1, hguard.2, hchecks, hscope, hid, hworkflow,
        hmode, hsource, hinputs, hparent, rfl, ?_⟩
      cases nextPhase with
      | none => exact h
      | some phase => exact h

theorem bindContract_wrote {work : Work} {c : Contract} {nextPhase : Option Phase}
    {context : Option Context} {operation : Option OperationId}
    (h : db.bindContract work c nextPhase context operation = .ok db') :
    Wrote Operation.Consumes db db' := by
  obtain ⟨-, -, mid, -, -, -, -, -, -, -, -, -, -, -, -, rfl, hconsume⟩ := bindContract_ok h
  have hmodify := Wrote.modifyWork { db with contracts := db.contracts.insertOrIgnore c } work.id
    (bound_id c.identity nextPhase (context.getD work.context)) (bound_rewritten _ _ _)
  have hbound := ((Wrote.insertContract db c).next hmodify).event work.id (.contractBound c.identity)
  exact hbound.consumes.consuming (consumeAll_wrote hconsume)

/-! ### The calls on operations -/

/-- The row `reserve` inserts. -/
def reserved (work : Work) (kind : Kind) (ordinal : Nat) (inputs : OperationInputs) (model : Bool)
    (provider : String) : Operation :=
  { id := .uuid5 work.id kind ordinal, work := work.id, kind, ordinal, inputHash := inputs,
    inputs := some inputs, model, provider }

/-- `UPDATE work_items SET calls=calls+1`, for a model operation. -/
def chargeWork (model : Bool) (w : Work) : Work := { w with calls := w.calls + model.toNat }

/-- `UPDATE workflows SET calls=calls+1`, for a model operation. -/
def chargeWorkflow (model : Bool) (w : Workflow) : Workflow :=
  { w with calls := w.calls + model.toNat }

theorem chargeWork_id (model : Bool) (w : Work) : (chargeWork model w).id = w.id := rfl

theorem chargeWorkflow_id (model : Bool) (w : Workflow) : (chargeWorkflow model w).id = w.id := rfl

theorem chargeWork_later (model : Bool) (w : Work) : Work.Later w (chargeWork model w) :=
  ⟨rfl, rfl, rfl, rfl, rfl, Nat.le_add_right _ _, Or.inl rfl⟩

theorem chargeWorkflow_later (model : Bool) (w : Workflow) :
    Workflow.Later w (chargeWorkflow model w) := ⟨rfl, rfl, rfl, Nat.le_add_right _ _⟩

/-- The database after a new reservation: the row, and one call charged for a model operation. -/
def charged (db : DB) (work : Work) (op : Operation) (hfresh : db.operations.find op.id = none) : DB :=
  ({ db with
    operations := db.operations.insert op hfresh
    works := db.works.modify work.id (chargeWork op.model) (chargeWork_id op.model)
    workflows := db.workflows.modify work.workflow (chargeWorkflow op.model)
      (chargeWorkflow_id op.model) }).event work.id
        (.operationReserved op.id op.kind op.model)

/-- Everything a reservation that answers new has checked, and what it writes. -/
structure Reserves (db db' : DB) (work : Work) (kind : Kind) (ordinal : Nat)
    (inputs : OperationInputs) (model : Bool) (provider : String) : Prop where
  node : ∃ node, db.works.find work.id = some node ∧ node.revision = work.revision ∧
    node.status = .running ∧ (model = true → node.calls < node.maxCalls)
  workflow : ∃ workflow, db.workflows.find work.workflow = some workflow ∧
    (model = true → ∀ limit ∈ workflow.maxCalls, workflow.calls < limit)
  assigned : ∀ call ∈ db.unassigned.rows, call.unresolved = false
  known : ∀ op ∈ db.operations.rows, op.state = .unknown → db.inWorkflow work.workflow op = false
  free : ∀ op ∈ db.operations.rows, ¬ (op.work = work.id ∧ op.kind = kind ∧ op.ordinal = ordinal)
  writes : ∃ hfresh, db' = db.charged work (reserved work kind ordinal inputs model provider) hfresh

theorem reserve_new {work : Work} {kind : Kind} {ordinal : Nat} {inputs : OperationInputs}
    {model : Bool} {provider : String}
    (h : db.reserve work kind ordinal inputs model provider = .ok (db', true)) :
    Reserves db db' work kind ordinal inputs model provider := by
  unfold reserve at h
  simp only at h
  split at h
  · simp only [guard_ok] at h
    exact absurd (Except.ok.inj h.2.2) (by simp)
  · split at h
    · next node workflow hnode hworkflow =>
        simp only [guard_ok] at h
        obtain ⟨hcurrent, hassigned, hknown, hbudget, hfree, h⟩ := h
        split at h
        · cases h
        · next operations hins =>
            obtain ⟨hfresh, rfl⟩ := insert?_eq_some.mp hins
            simp only [not_or, not_not, ne_eq] at hcurrent
            simp only [List.any_eq_true, not_exists, not_and, Bool.not_eq_true] at hassigned hknown hfree
            refine ⟨⟨node, hnode, hcurrent.1, hcurrent.2, ?_⟩, ⟨workflow, hworkflow, ?_⟩, hassigned, ?_, ?_,
              hfresh, ?_⟩
            · intro hmodel
              by_contra hle
              exact hbudget ⟨hmodel, Or.inl (not_lt.mp hle)⟩
            · intro hmodel limit hlimit
              by_contra hle
              exact hbudget ⟨hmodel, Or.inr ⟨limit, hlimit, not_lt.mp hle⟩⟩
            · intro op hop hstate
              simpa [hstate] using hknown op hop
            · intro op hop hsame
              simpa [hsame] using hfree op hop
            · cases h
              cases model <;> rfl
    · cases h

/-- A reservation that finds its operation retained changes nothing. -/
theorem reserve_retained {work : Work} {kind : Kind} {ordinal : Nat} {inputs : OperationInputs}
    {model : Bool} {provider : String}
    (h : db.reserve work kind ordinal inputs model provider = .ok (db', false)) : db' = db := by
  unfold reserve at h
  simp only at h
  split at h
  · simp only [guard_ok] at h
    cases h.2.2
    rfl
  · split at h
    · simp only [guard_ok] at h
      obtain ⟨-, -, -, -, -, h⟩ := h
      split at h
      · cases h
      · cases h
    · cases h

theorem settle_ok {identity : OperationId} {result : Receipt} {state : OperationState}
    (h : db.settle identity result state = .ok db') :
    state ≠ .dispatched ∧ ∃ row, db.operations.find identity = some row ∧
      row.state.unresolved = true ∧
      db' = ({ db with
        operations := db.operations.modify identity
          (fun op => { op with state, result := some result }) fun _ => rfl }).event row.work
            (.operationSettled identity state) := by
  unfold settle at h
  rw [guard_ok] at h
  obtain ⟨hstate, h⟩ := h
  split at h
  · cases h
  · next row hrow =>
      rw [guard_ok] at h
      obtain ⟨hopen, h⟩ := h
      cases h
      exact ⟨hstate, row, hrow, by simpa using hopen, rfl⟩

theorem settle_wrote {identity : OperationId} {result : Receipt} {state : OperationState}
    (h : db.settle identity result state = .ok db') :
    Wrote (Call.Moves (.settle identity result state)) db db' := by
  obtain ⟨hstate, row, hrow, hopen, rfl⟩ := settle_ok h
  refine Wrote.event (Wrote.modifyOperation db identity _ (fun _ => Or.inl rfl) ?_) _ _
  intro op hop
  obtain rfl := Option.some.inj (hrow.symm.trans hop)
  exact Or.inr ⟨find_key hrow, hopen, hstate, rfl⟩

theorem deriveReceipt_ok {identity : OperationId} {result : Receipt}
    (h : db.deriveReceipt identity result = .ok db') :
    ∃ row, db.operations.find identity = some row ∧ row.state = .confirmed ∧ row.consumed = false ∧
      db' = { db with
        operations := db.operations.modify identity (fun op => { op with result := some result })
          fun _ => rfl } := by
  unfold deriveReceipt at h
  split at h
  · cases h
  · next row hrow =>
      rw [guard_ok] at h
      obtain ⟨howned, h⟩ := h
      simp only [not_or, not_not, ne_eq, Bool.not_eq_true] at howned
      split at h
      · cases h
        exact ⟨row, hrow, howned.1, howned.2, rfl⟩
      · cases h

theorem deriveReceipt_wrote {identity : OperationId} {result : Receipt}
    (h : db.deriveReceipt identity result = .ok db') :
    Wrote (Call.Moves (.deriveReceipt identity result)) db db' := by
  obtain ⟨row, hrow, hstate, hconsumed, rfl⟩ := deriveReceipt_ok h
  refine Wrote.modifyOperation db identity _ (fun _ => Or.inl rfl) fun op hop => ?_
  obtain rfl := Option.some.inj (hrow.symm.trans hop)
  exact Or.inr ⟨find_key hrow, hstate, hconsumed, rfl⟩

theorem mapOperations_wrote (db : DB) {M : Operation → Operation → Prop} {f : Operation → Operation}
    (hf : ∀ op, (f op).id = op.id) (h : ∀ op, M op (f op)) :
    Wrote M db { db with operations := db.operations.map f hf } where
  works := Grown.refl Work.Rewritten.refl _
  workflows := Grown.refl (fun _ => rfl) _
  contracts := Grown.refl (fun _ => rfl) _
  operations := Grown.map hf fun op _ => h op
  rooted w hw := Or.inl ⟨w, hw, rfl⟩

theorem compacted_moves (longResult longInputs : Operation → Bool) (op : Operation) :
    Call.Moves (.collect longResult longInputs) op (compacted db longResult longInputs op) := by
  unfold compacted
  split
  · next hready =>
      simp only [Bool.and_eq_true] at hready
      exact Or.inr ⟨_, _, hready.1.1, rfl⟩
  · exact Or.inl rfl

theorem collect_wrote (db : DB) (longResult longInputs : Operation → Bool) :
    Wrote (Call.Moves (.collect longResult longInputs)) db (db.collect longResult longInputs) := by
  have h := mapOperations_wrote db (compacted_id db longResult longInputs)
    (compacted_moves longResult longInputs)
  exact ⟨h.works, h.workflows, h.contracts, h.operations, h.rooted⟩

end DB

namespace Call

variable {db db' : DB}

theorem reserve_cases {work : Work} {kind : Kind} {ordinal : Nat} {inputs : OperationInputs}
    {model : Bool} {provider : String}
    (h : exec db (.reserve work kind ordinal inputs model provider) = .ok db') :
    DB.Reserves db db' work kind ordinal inputs model provider ∨ db' = db := by
  simp only [exec] at h
  cases hres : db.reserve work kind ordinal inputs model provider with
  | error e =>
      rw [hres] at h
      cases h
  | ok answer =>
      obtain ⟨db'', new⟩ := answer
      rw [hres] at h
      cases h
      cases new with
      | true => exact Or.inl (DB.reserve_new hres)
      | false => exact Or.inr (DB.reserve_retained hres)

/-- The effect of every call: a new reservation, or a move of each operation that the call allows. -/
theorem exec_ok {call : Call} (h : call.exec db = .ok db') :
    (∃ work kind ordinal inputs model provider,
      call = .reserve work kind ordinal inputs model provider ∧
        DB.Reserves db db' work kind ordinal inputs model provider) ∨
    DB.Wrote call.Moves db db' := by
  cases call with
  | reserve work kind ordinal inputs model provider =>
      rcases reserve_cases h with hnew | rfl
      · exact Or.inl ⟨_, _, _, _, _, _, rfl, hnew⟩
      · exact Or.inr (DB.Wrote.refl Operation.Consumes.refl _)
  | createWorkflow => exact Or.inr (DB.createWorkflow_wrote h).consumes
  | child => exact Or.inr (DB.child_wrote h)
  | batch => exact Or.inr (DB.batch_wrote h).consumes
  | addon => exact Or.inr (DB.addon_wrote h).consumes
  | transition => exact Or.inr (DB.transition_wrote h)
  | bindContract => exact Or.inr (DB.bindContract_wrote h)
  | settle => exact Or.inr (DB.settle_wrote h)
  | deriveReceipt => exact Or.inr (DB.deriveReceipt_wrote h)
  | consume => exact Or.inr (DB.consume_wrote h)
  | event work data =>
      cases h
      exact Or.inr ((DB.Wrote.refl Operation.Consumes.refl db).event work data)
  | orphanCalls =>
      cases h
      exact Or.inr (DB.mapOperations_wrote db DB.orphaned_id fun _ => rfl)
  | collect longResult longInputs =>
      cases h
      exact Or.inr (DB.collect_wrote db longResult longInputs)
  | setUnassigned call =>
      cases h
      have hsame := DB.Wrote.refl Operation.Consumes.refl db
      exact Or.inr ⟨hsame.works, hsame.workflows, hsame.contracts, hsame.operations, hsame.rooted⟩

end Call

/-! ### One database at two moments -/

/-- An operation at some later moment: a receipt is never taken back. -/
structure Operation.Later (op op' : Operation) : Prop where
  kept : Operation.Kept op op'
  consumed : op.consumed = true → op'.consumed = true
  state : op.state.settled = true → op'.state = op.state

namespace Operation

theorem Later.refl (op : Operation) : Later op op := ⟨Kept.refl op, fun h => h, fun _ => rfl⟩

theorem Later.trans {a b c : Operation} (h : Later a b) (h' : Later b c) : Later a c where
  kept := h.kept.trans h'.kept
  consumed hc := h'.consumed (h.consumed hc)
  state hs := by
    have hb := h.state hs
    rw [← hb] at hs
    exact (h'.state hs).trans hb

theorem Consumes.later {op op' : Operation} (h : Consumes op op') : Later op op' := by
  rcases h with rfl | ⟨-, rfl⟩
  · exact Later.refl _
  · exact ⟨⟨rfl, rfl, rfl, rfl, rfl, rfl⟩, fun _ => rfl, fun _ => rfl⟩

theorem orphaned_later (op : Operation) : Later op (DB.orphaned op) := by
  unfold DB.orphaned
  split_ifs with hstate hmodel hlocal
  · exact Later.refl op
  all_goals
    rw [ne_eq, not_not] at hstate
    refine ⟨⟨rfl, rfl, rfl, rfl, rfl, rfl⟩, ?_, ?_⟩
    · first | exact fun h => h | exact fun _ => rfl
    · rw [hstate]
      exact fun h => nomatch h

end Operation

theorem Call.Moves.later {call : Call} {op op' : Operation} (h : call.Moves op op') :
    Operation.Later op op' := by
  cases call with
  | settle identity result state =>
      rcases h with rfl | ⟨-, hopen, -, rfl⟩
      · exact Operation.Later.refl _
      · refine ⟨⟨rfl, rfl, rfl, rfl, rfl, rfl⟩, id, fun hsettled => ?_⟩
        simp only [OperationState.settled_eq_not_unresolved, hopen, Bool.not_true,
          Bool.false_eq_true] at hsettled
  | deriveReceipt identity result =>
      rcases h with rfl | ⟨-, -, -, rfl⟩
      · exact Operation.Later.refl _
      · exact ⟨⟨rfl, rfl, rfl, rfl, rfl, rfl⟩, id, fun _ => rfl⟩
  | orphanCalls =>
      obtain rfl := h
      exact Operation.orphaned_later op
  | collect longResult longInputs =>
      rcases h with rfl | ⟨result, inputs, -, rfl⟩
      · exact Operation.Later.refl _
      · exact ⟨⟨rfl, rfl, rfl, rfl, rfl, rfl⟩, id, fun _ => rfl⟩
  | _ => exact Operation.Consumes.later h

namespace DB

/-- Every row is still there, at some later moment of its own. -/
structure Advanced (db db' : DB) : Prop where
  works : ∀ id w, db.works.find id = some w → ∃ w', db'.works.find id = some w' ∧ Work.Later w w'
  workflows : ∀ id w, db.workflows.find id = some w →
    ∃ w', db'.workflows.find id = some w' ∧ Workflow.Later w w'
  contracts : ∀ id c, db.contracts.find id = some c → db'.contracts.find id = some c
  operations : ∀ id op, db.operations.find id = some op →
    ∃ op', db'.operations.find id = some op' ∧ Operation.Later op op'

variable {db db' db'' : DB}

theorem Advanced.refl (db : DB) : Advanced db db where
  works _ w h := ⟨w, h, Work.Later.refl w⟩
  workflows _ w h := ⟨w, h, Workflow.Later.refl w⟩
  contracts _ _ h := h
  operations _ op h := ⟨op, h, Operation.Later.refl op⟩

theorem Advanced.trans (h : Advanced db db') (h' : Advanced db' db'') : Advanced db db'' where
  works id w hw := by
    obtain ⟨w', hw', hlater⟩ := h.works id w hw
    obtain ⟨w'', hw'', hlater'⟩ := h'.works id w' hw'
    exact ⟨w'', hw'', hlater.trans hlater'⟩
  workflows id w hw := by
    obtain ⟨w', hw', hlater⟩ := h.workflows id w hw
    obtain ⟨w'', hw'', hlater'⟩ := h'.workflows id w' hw'
    exact ⟨w'', hw'', hlater.trans hlater'⟩
  contracts id c hc := h'.contracts id c (h.contracts id c hc)
  operations id op hop := by
    obtain ⟨op', hop', hlater⟩ := h.operations id op hop
    obtain ⟨op'', hop'', hlater'⟩ := h'.operations id op' hop'
    exact ⟨op'', hop'', hlater.trans hlater'⟩

theorem Wrote.advanced {M : Operation → Operation → Prop} (h : Wrote M db db')
    (hM : ∀ op op', M op op' → Operation.Later op op') : Advanced db db' where
  works id w hw := by
    obtain ⟨w', hw', hrewritten⟩ := h.works.find hw
    exact ⟨w', hw', hrewritten.later⟩
  workflows id w hw := by
    obtain ⟨w', hw', rfl⟩ := h.workflows.find hw
    exact ⟨_, hw', Workflow.Later.refl _⟩
  contracts id c hc := by
    obtain ⟨c', hc', rfl⟩ := h.contracts.find hc
    exact hc'
  operations id op hop := by
    obtain ⟨op', hop', hmove⟩ := h.operations.find hop
    exact ⟨op', hop', hM op op' hmove⟩

section

variable (work : Work) (op : Operation) (hfresh : db.operations.find op.id = none)

theorem charged_works :
    Grown (fun _ => False) Work.Later db.works (db.charged work op hfresh).works :=
  Grown.modify work.id (chargeWork_id op.model) Work.Later.refl fun w _ => chargeWork_later op.model w

theorem charged_workflows :
    Grown (fun _ => False) Workflow.Later db.workflows (db.charged work op hfresh).workflows :=
  Grown.modify work.workflow (chargeWorkflow_id op.model) Workflow.Later.refl fun w _ =>
    chargeWorkflow_later op.model w

theorem charged_operations :
    Grown (fun row => row = op) Eq db.operations (db.charged work op hfresh).operations :=
  Grown.insert (fun row => row = op) (fun _ => rfl) rfl hfresh

theorem charged_advanced : Advanced db (db.charged work op hfresh) where
  works _ _ hw := (charged_works work op hfresh).find hw
  workflows _ _ hw := (charged_workflows work op hfresh).find hw
  contracts _ _ h := h
  operations id old hold := by
    obtain ⟨old', hold', rfl⟩ := (charged_operations work op hfresh).find hold
    exact ⟨old, hold', Operation.Later.refl old⟩

end

end DB

theorem Call.exec_advanced {call : Call} {db db' : DB} (h : call.exec db = .ok db') :
    DB.Advanced db db' := by
  rcases Call.exec_ok h with ⟨work, kind, ordinal, inputs, model, provider, -, hnew⟩ | hwrote
  · obtain ⟨hfresh, rfl⟩ := hnew.writes
    exact DB.charged_advanced _ _ _
  · exact hwrote.advanced fun _ _ hmove => hmove.later

theorem Call.after_advanced (call : Call) (db : DB) : DB.Advanced db (call.after db) := by
  unfold Call.after
  split
  · next h => exact Call.exec_advanced h
  · exact DB.Advanced.refl db

/-! ### The system -/

/-- The committed databases, the last one apart; a caller may still hold what it read in any of them. -/
structure History where
  past : List DB
  now : DB

namespace History

def seen (s : History) : List DB := s.now :: s.past

/-- A record some caller may hold. -/
def Read (s : History) (w : Work) : Prop := ∃ db ∈ s.seen, db.works.find w.id = some w

/-- The contexts a caller supplies. -/
def contexts : Call → List Context
  | .transition _ _ changes _ _ => changes.context.toList
  | .bindContract _ _ _ context _ => context.toList
  | _ => []

end History

/-- Before the first call. -/
def History.origin : History := ⟨[], .empty⟩

/-- The store, from an empty database, under any interleaving of its callers. The key `ordinals` of a
context is read by `effect` and written by no caller. -/
def storeSystem : System History Call where
  start s := s = .origin
  step s call t :=
    (∀ w ∈ call.records, s.Read w) ∧ (∀ context ∈ History.contexts call, context.ordinals = []) ∧
      t = ⟨s.seen, call.after s.now⟩

namespace History

variable {s t : History} {trace : List (Taken History Call)}

def next (s : History) (call : Call) : History := ⟨s.seen, call.after s.now⟩

/-- The transitions of a sequence of calls. -/
def taken (s : History) : List Call → List (Taken History Call)
  | [] => []
  | call :: calls => ⟨s, call, s.next call⟩ :: (s.next call).taken calls

/-- The history after a sequence of calls. -/
def replay (s : History) (calls : List Call) : History := calls.foldl next s

/-- Each call is given records that were read before it. -/
def Callable (s : History) : List Call → Prop
  | [] => True
  | call :: calls =>
      (∀ w ∈ call.records, s.Read w) ∧ (∀ context ∈ contexts call, context.ordinals = []) ∧
        (s.next call).Callable calls

theorem run_replay (h : storeSystem.Run trace s) {calls : List Call} (hcalls : s.Callable calls) :
    storeSystem.Run (trace ++ s.taken calls) (s.replay calls) := by
  induction calls generalizing s trace with
  | nil => rwa [taken, List.append_nil]
  | cons call calls ih =>
      obtain ⟨hread, hcontexts, hrest⟩ := hcalls
      have hfirst := ih (h.step ⟨hread, hcontexts, rfl⟩) hrest
      rwa [List.append_assoc, List.singleton_append] at hfirst

theorem run_calls {calls : List Call} (hcalls : origin.Callable calls) :
    storeSystem.Run (origin.taken calls) (origin.replay calls) :=
  run_replay (System.Run.start rfl) hcalls

/-- Every database that was ever committed has only advanced. -/
theorem seen_advanced (h : storeSystem.Reachable s) : ∀ db ∈ s.seen, DB.Advanced db s.now := by
  refine h.invariant (I := fun s => ∀ db ∈ s.seen, DB.Advanced db s.now) ?_ ?_
  · rintro _ rfl db hdb
    obtain rfl := List.mem_singleton.mp hdb
    exact DB.Advanced.refl _
  · rintro s call _ ih ⟨-, -, rfl⟩ db hdb
    rcases List.mem_cons.mp hdb with rfl | hold
    · exact DB.Advanced.refl _
    · exact (ih db hold).trans (call.after_advanced s.now)

/-- A record that a caller holds describes its row at an earlier moment. -/
theorem Read.later {w : Work} (hw : s.Read w) (h : storeSystem.Reachable s) :
    ∃ row, s.now.works.find w.id = some row ∧ Work.Later w row := by
  obtain ⟨db, hdb, hfind⟩ := hw
  exact (seen_advanced h db hdb).works _ _ hfind

theorem step_advanced {call : Call} (h : storeSystem.step s call t) : DB.Advanced s.now t.now := by
  obtain ⟨-, -, rfl⟩ := h
  exact call.after_advanced s.now

end History

theorem repair_given : blank "repair" = false := by decide

/-- The record of a new fix work item, at a revision. -/
def fixRecord (status : Status) (revision : Nat) : Work :=
  { id := "work", workflow := "flow", parent := none, mode := .fix, phase := .classify, status, revision,
    contract := [{ workflowId := "flow", workId := "work", mode := .fix, goal := "repair",
                   source := .initial ∅ "base", goal_given := repair_given, scope_relative := rfl }],
    maxCalls := 2 }

/-- A fix is created, runs and reserves its first model call. -/
def firstCalls : List Call :=
  [.createWorkflow "flow" "work" .fix "repair" (.initial ∅ "base") {} {} [] [] (some 2) 2,
    .transition (fixRecord .ready 0) .running {} none [],
    .reserve (fixRecord .running 1) (.model .classify) 0 (.model "prompt" [] "codex") true "codex"]

theorem firstCalls_run :
    storeSystem.Run (History.origin.taken firstCalls) (History.origin.replay firstCalls) := by
  refine History.run_calls ?_
  simp only [History.Callable, firstCalls, Call.records, History.contexts, History.Read]
  decide

end AutoAgents
