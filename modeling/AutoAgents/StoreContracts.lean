import AutoAgents.StoreRows

/-! Contracts over the runs of the store. A contract is stored under the digest of its payload and read
back from it; the contract a work item is under is only ever completed, with checks and a scope it did
not have. -/

namespace AutoAgents

open Base Base.Table
open Git (Path Commit)

/-! ### Payloads -/

/-- `SCHEMA`. -/
def contractSchema : Nat := 2

/-- The payload of a contract row: `Contract.to_dict()`. -/
structure ContractDict where
  schema : Nat
  workflowId : String
  workId : String
  mode : Mode
  goal : String
  source : Commit
  authorization : Authorization
  scope : List Path
  checks : List RawCheck
  inputs : Inputs
  parentContract : ContractId

namespace Contract

def toDict (c : Contract) : ContractDict where
  schema := contractSchema
  workflowId := c.workflowId
  workId := c.workId
  mode := c.mode
  goal := c.goal
  source := c.source
  authorization := c.authorization
  scope := c.scope
  checks := c.checks.map (·.toDict)
  inputs := c.inputs
  parentContract := c.parentContract

/-- `Contract.read`, with the errors of `__post_init__`. -/
def read (value : ContractDict) : Except ControlError Contract := do
  let checks ← value.checks.mapM DB.readSpec
  if value.schema ≠ contractSchema then .error ⟨"contract", "Invalid business contract", .state⟩
  else
    build value.workflowId value.workId value.mode value.goal value.source value.authorization value.scope
      checks value.inputs value.parentContract

end Contract

theorem readSpec_toDict (spec : VerificationSpec) : DB.readSpec spec.toDict = .ok spec := by
  obtain ⟨command, targets, purpose, required, timeout, outputs, hcommand, htimeout⟩ := spec
  cases purpose <;>
    simp only [DB.readSpec, VerificationSpec.toDict, Purpose.text, hcommand, dif_pos, Int.toNat_natCast] <;>
    exact dif_pos htimeout

theorem readSpecs_toDict (specs : List VerificationSpec) :
    (specs.map (·.toDict)).mapM DB.readSpec = .ok specs := by
  induction specs with
  | nil => rfl
  | cons spec specs ih =>
      rw [List.map_cons, List.mapM_cons, readSpec_toDict, ih]
      rfl

/-- A payload is read back as the contract it was written from. -/
theorem Contract.read_toDict (c : Contract) : Contract.read c.toDict = .ok c := by
  have hchecks : c.toDict.checks.mapM DB.readSpec = .ok c.checks := readSpecs_toDict c.checks
  unfold Contract.read
  rw [hchecks]
  show Contract.build c.workflowId c.workId c.mode c.goal c.source c.authorization c.scope c.checks c.inputs
    c.parentContract = .ok c
  unfold Contract.build
  rw [dif_pos c.goal_given, dif_pos c.scope_relative]

/-- `Store.contract`: the stored payload, whose digest must be the identity it is stored under. -/
def DB.load (db : DB) (identity : ContractId) : Except ControlError Contract :=
  match (db.contracts.find identity).map (·.toDict) with
  | none => .error ⟨"contract", "Missing contract", .state⟩
  | some payload => do
      let c ← Contract.read payload
      if c.identity ≠ identity then .error ⟨"integrity", "Contract checksum changed", .state⟩ else pure c

/-- The checksum never fails. -/
theorem DB.load_eq_contract (db : DB) (identity : ContractId) : db.load identity = db.contract identity := by
  unfold load contract
  cases hfind : db.contracts.find identity with
  | none => rfl
  | some c =>
      have hkey : c.identity = identity := find_key hfind
      have hread : (some c).map Contract.toDict = some c.toDict := rfl
      rw [hread]
      show (Contract.read c.toDict >>= fun d => if d.identity ≠ identity then
        .error ⟨"integrity", "Contract checksum changed", .state⟩ else pure d) = .ok c
      rw [Contract.read_toDict]
      exact if_neg (not_not.mpr hkey)

/-! ### The contract of a work item -/

/-- A contract that completes another: what was given at creation is equal, and checks and scope are
equal once they are there. -/
structure Contract.Completes (c c' : Contract) : Prop where
  workflowId : c'.workflowId = c.workflowId
  workId : c'.workId = c.workId
  mode : c'.mode = c.mode
  goal : c'.goal = c.goal
  source : c'.source = c.source
  authorization : c'.authorization = c.authorization
  inputs : c'.inputs = c.inputs
  parentContract : c'.parentContract = c.parentContract
  checks : c.checks ≠ [] → c'.checks = c.checks
  scope : c.scope ≠ [] → c'.scope = c.scope

namespace Contract.Completes

theorem refl (c : Contract) : c.Completes c :=
  ⟨rfl, rfl, rfl, rfl, rfl, rfl, rfl, rfl, fun _ => rfl, fun _ => rfl⟩

theorem trans {a b c : Contract} (h : a.Completes b) (h' : b.Completes c) : a.Completes c where
  workflowId := h'.workflowId.trans h.workflowId
  workId := h'.workId.trans h.workId
  mode := h'.mode.trans h.mode
  goal := h'.goal.trans h.goal
  source := h'.source.trans h.source
  authorization := h'.authorization.trans h.authorization
  inputs := h'.inputs.trans h.inputs
  parentContract := h'.parentContract.trans h.parentContract
  checks hgiven := by
    have hsame := h.checks hgiven
    rw [← hsame] at hgiven
    exact (h'.checks hgiven).trans hsame
  scope hgiven := by
    have hsame := h.scope hgiven
    rw [← hsame] at hgiven
    exact (h'.scope hgiven).trans hsame

end Contract.Completes

/-- The contract row a work row names, with its identity. -/
def DB.Names (db : DB) (w : Work) (c : Contract) : Prop :=
  db.contracts.find w.contract = some c ∧ c.workId = w.id ∧ c.workflowId = w.workflow ∧ c.mode = w.mode

/-- Every work item is under a contract of its own. -/
def DB.Contracted (db : DB) : Prop := ∀ w ∈ db.works.rows, ∃ c, db.Names w c

/-- Two rows that name the same contract for the same work item. -/
def Work.SameContract (w w' : Work) : Prop :=
  w'.contract = w.contract ∧ w'.id = w.id ∧ w'.workflow = w.workflow ∧ w'.mode = w.mode

namespace DB

variable {db db' : DB}

theorem Names.same {w w' : Work} {c : Contract} (h : db.Names w c) (hsame : w.SameContract w')
    (hkept : ∀ id c, db.contracts.find id = some c → db'.contracts.find id = some c) : db'.Names w' c := by
  obtain ⟨hcontract, hid, hflow, hmode⟩ := hsame
  refine ⟨?_, h.2.1.trans hid.symm, h.2.2.1.trans hflow.symm, h.2.2.2.trans hmode.symm⟩
  rw [hcontract]
  exact hkept _ _ h.1

/-- Rows that keep their contracts, and new rows that name one. -/
theorem Contracted.grown {N : Work → Prop} (h : db.Contracted)
    (hrows : Grown N Work.SameContract db.works db'.works)
    (hkept : ∀ id c, db.contracts.find id = some c → db'.contracts.find id = some c)
    (hnew : ∀ w, N w → ∃ c, db'.Names w c) : db'.Contracted := by
  intro w' hw'
  rcases Grown.mem hrows hw' with ⟨w, hw, -, hsame⟩ | hadded
  · obtain ⟨c, hc⟩ := h w hw
    exact ⟨c, hc.same hsame hkept⟩
  · exact hnew w' hadded

theorem sameContract_refl (w : Work) : w.SameContract w := ⟨rfl, rfl, rfl, rfl⟩

theorem Contracted.insertWork {c : Contract} {parent : Option String} {phase : Phase} {limit : Nat}
    (h : db.Contracted) (hins : db.insertWork c parent phase limit = .ok db') : db'.Contracted := by
  obtain ⟨-, hfresh, rfl⟩ := insertWork_ok hins
  have hrow : Grown (· = newWork c parent phase limit) Work.SameContract db.works
      (db.works.insert (newWork c parent phase limit) hfresh) :=
    Grown.insert (fun w => w = newWork c parent phase limit) sameContract_refl rfl hfresh
  refine h.grown hrow (insertWork_wrote hins |>.advanced (fun _ _ hsame => hsame ▸ .refl _)).contracts ?_
  rintro w rfl
  refine ⟨c, ?_, rfl, rfl, rfl⟩
  show (db.contracts.insertOrIgnore c).find c.identity = some c
  rw [find_insertOrIgnore, if_pos rfl]
  cases hold : db.contracts.find c.identity with
  | none => rfl
  | some d => rw [Option.getD_some, Contract.identity_injective (find_key hold)]

theorem Contracted.modify {id : String} {f : Work → Work} (hf : ∀ w, (f w).id = w.id) (h : db.Contracted)
    (hsame : ∀ w : Work, w.SameContract (f w)) :
    Contracted { db with works := db.works.modify id f hf } := by
  have hrow : Grown (fun _ => False) Work.SameContract db.works (db.works.modify id f hf) :=
    Grown.modify id hf sameContract_refl fun w _ => hsame w
  exact h.grown hrow (fun _ _ hc => hc) fun _ hnone => hnone.elim

theorem Contracted.transitionRow {w : Work} {status : Status} {changes : Changes} (h : db.Contracted)
    (hmove : db.transitionRow w status changes = .ok db') : db'.Contracted := by
  obtain ⟨current, -, -, -, -, rfl⟩ := transitionRow_ok hmove
  exact h.modify (changed_id status changes) fun _ => ⟨rfl, rfl, rfl, rfl⟩

theorem Contracted.consumeAll {identities : List OperationId} (h : db.Contracted)
    (hconsume : identities.foldlM consume db = .ok db') : db'.Contracted := by
  refine foldlM_keeps Contracted (fun a id b ha hstep => ?_) h hconsume
  obtain ⟨-, -, -, rfl⟩ := consume_ok hstep
  exact ha

theorem Contracted.batchTask {parent : Work} {pc : Contract} {source : Commit} {item : String × Task}
    (h : db.Contracted) (hstep : batchTask parent pc source db item = .ok db') : db'.Contracted := by
  obtain ⟨work, task⟩ := item
  simp only [DB.batchTask, bind_ok, pure_ok] at hstep
  obtain ⟨checks, -, c, -, inserted, hins, rfl⟩ := hstep
  exact (h.insertWork hins).modify (f := fun w => { w with context := { taskId := some task.taskId } })
    (fun _ => rfl) fun _ => ⟨rfl, rfl, rfl, rfl⟩

/-- What a binding keeps of the contract it completes. -/
theorem bindContract_completes {work : Work} {c : Contract} {nextPhase : Option Phase}
    {context : Option Context} {operation : Option OperationId}
    (h : db.bindContract work c nextPhase context operation = .ok db') :
    ∃ previous, db.contracts.find work.contract = some previous ∧
      (previous.workId = work.id → previous.workflowId = work.workflow → previous.mode = work.mode →
        previous.Completes c) := by
  simp only [bindContract, guard_ok, bind_ok, contract_eq_ok] at h
  obtain ⟨howner, previous, hprevious, hchecks, hscope, hfields, -⟩ := h
  simp only [not_or, not_not, not_and, ne_eq] at howner hchecks hscope hfields
  obtain ⟨hid, hworkflow, hmode⟩ := howner
  obtain ⟨hgoal, hsource, hauthorization, hinputs, hparent⟩ := hfields
  refine ⟨previous, hprevious, fun hid' hworkflow' hmode' => ?_⟩
  exact ⟨hworkflow.trans hworkflow'.symm, hid.trans hid'.symm, hmode.trans hmode'.symm, hgoal, hsource,
    hauthorization, hinputs, hparent, hchecks, hscope⟩

end DB

/-! ### Calls -/

namespace Call

variable {db db' : DB} {call : Call}

/-- The calls that write the contract of a work item, or add one with its contract. -/
def contracts : Call → Bool
  | createWorkflow .. | child .. | batch .. | addon .. | bindContract .. => true
  | _ => false

variable (hrecords : ∀ w ∈ call.records, ∃ row, db.works.find w.id = some row ∧ Work.Later w row)
include hrecords

/-- What becomes of the contract of a work item in one call: the binding reads it outside the transaction
that writes, and the revision makes it the contract of the row. -/
theorem exec_completes (hcontracted : db.Contracted) (h : call.exec db = .ok db') {id : String}
    {w w' : Work} (hw : db.works.find id = some w) (hw' : db'.works.find id = some w') :
    ∃ c c', db.Names w c ∧ db'.Names w' c' ∧ c.Completes c' := by
  obtain ⟨c, hc⟩ := hcontracted w (find_some hw).1
  have hrows := exec_rows (fun w hw => (hrecords w hw).imp fun _ hrow => hrow.1) h
  have hkept := (exec_advanced h).contracts
  obtain ⟨w'', hw'', hwrites⟩ := hrows.find hw
  obtain rfl := Option.some.inj (hw'.symm.trans hw'')
  have hsame : w.SameContract w' → ∃ c c', db.Names w c ∧ db'.Names w' c' ∧ c.Completes c' :=
    fun hsame => ⟨c, c, hc, hc.same hsame hkept, .refl c⟩
  rcases writes_cases hwrites with rfl | ⟨n, rfl⟩ | ⟨record, hrecord, hid, hrev, hadmits, rfl⟩
  · exact hsame (DB.sameContract_refl w')
  · exact hsame ⟨rfl, rfl, rfl, rfl⟩
  cases call with
  | bindContract work bound nextPhase context operation =>
      obtain rfl := List.mem_singleton.mp hrecord
      obtain ⟨row, hrow, hlater⟩ := hrecords record hrecord
      have hkey : w.id = id := find_key hw
      rw [← hid, hkey, hw] at hrow
      obtain rfl := Option.some.inj hrow
      have hcurrent := hlater.current hrev
      simp only [exec] at h
      obtain ⟨previous, hprevious, hcompletes⟩ := DB.bindContract_completes h
      have hcontract : record.contract = w.contract := by rw [hcurrent]
      obtain rfl : previous = c := by
        rw [hcontract, hc.1] at hprevious
        exact (Option.some.inj hprevious).symm
      have hbound := hcompletes (hc.2.1.trans hlater.id) (hc.2.2.1.trans hlater.workflow)
        (hc.2.2.2.trans hlater.mode)
      have hstored : db'.contracts.find bound.identity = some bound := by
        obtain ⟨-, -, mid, -, -, -, -, -, -, -, -, -, -, -, -, rfl, hconsume⟩ := DB.bindContract_ok h
        have hinsert : (db.contracts.insertOrIgnore bound).find bound.identity = some bound := by
          rw [find_insertOrIgnore, if_pos rfl]
          cases hold : db.contracts.find bound.identity with
          | none => rfl
          | some d => rw [Option.getD_some, Contract.identity_injective (find_key hold)]
        exact ((DB.consumeAll_wrote hconsume).advanced fun _ _ hmoved => hmoved.later).contracts _ _ hinsert
      refine ⟨previous, bound, hc, ⟨?_, ?_, ?_, ?_⟩, hbound⟩
      · cases nextPhase <;> exact hstored
      · cases nextPhase <;> exact hbound.workId.trans hc.2.1
      · cases nextPhase <;> exact hbound.workflowId.trans hc.2.2.1
      · cases nextPhase <;> exact hbound.mode.trans hc.2.2.2
  | transition | child | batch => exact hsame ⟨rfl, rfl, rfl, rfl⟩
  | _ => exact hadmits.elim

/-- Every call leaves each work item under a contract of its own. -/
theorem exec_contracted (hcontracted : db.Contracted) (h : call.exec db = .ok db') : db'.Contracted := by
  cases hcall : call.contracts with
  | false =>
      have hrows := exec_rows (fun w hw => (hrecords w hw).imp fun _ hrow => hrow.1) h
      have hsame : Grown (fun _ => False) Work.SameContract db.works db'.works := by
        refine hrows.mono (fun w hadds => ?_) fun w w' hwrites => ?_
        · cases call <;> first | exact hadds.1 | cases hcall
        · rcases writes_cases hwrites with rfl | ⟨n, rfl⟩ | ⟨record, -, -, -, hadmits, rfl⟩
          · exact DB.sameContract_refl w'
          · exact ⟨rfl, rfl, rfl, rfl⟩
          · cases call <;> first | exact ⟨rfl, rfl, rfl, rfl⟩ | exact hadmits.elim | cases hcall
      exact hcontracted.grown hsame (exec_advanced h).contracts fun _ hnone => hnone.elim
  | true =>
      cases call with
      | createWorkflow workflow work mode goal source authorization inputs scope checks maxCalls nodeLimit =>
          simp only [exec, DB.createWorkflow, guard_ok, bind_ok] at h
          obtain ⟨-, c, -, h⟩ := h
          split at h
          · cases h
          · next workflows _ =>
              have hsame : DB.Contracted { db with workflows } := hcontracted
              exact hsame.insertWork h
      | child parent work mode goal source inputs scope checks limit operation =>
          simp only [exec, DB.child, bind_ok] at h
          obtain ⟨pc, -, c, -, inserted, hins, moved, hmove, hconsume⟩ := h
          exact ((hcontracted.insertWork hins).transitionRow hmove).consumeAll hconsume
      | batch parent tasks source =>
          simp only [exec, DB.batch, bind_ok] at h
          obtain ⟨pc, -, mid, hfold, hmove⟩ := h
          have htasks : mid.Contracted :=
            foldlM_keeps DB.Contracted (fun _ _ _ ha hstep => ha.batchTask hstep) hcontracted hfold
          exact htasks.transitionRow hmove
      | addon parent identity goal source scope inputs phase =>
          simp only [exec, DB.addon, bind_ok] at h
          obtain ⟨pc, -, c, -, hins⟩ := h
          exact hcontracted.insertWork hins
      | bindContract work bound nextPhase context operation =>
          intro w' hw'
          have hrows := exec_rows (fun w hw => (hrecords w hw).imp fun _ hrow => hrow.1) h
          rcases Grown.mem hrows hw' with ⟨w, hw, hid, -⟩ | ⟨hadds, -⟩
          · have hfind : db'.works.find w.id = some w' := by
              rw [show w.id = w'.id from hid]
              exact find_of_mem hw'
            obtain ⟨c, c', -, hc', -⟩ := exec_completes hrecords hcontracted h (find_of_mem hw) hfind
            exact ⟨c', hc'⟩
          · exact hadds.elim
      | _ => cases hcall

end Call

/-! ### Runs of the store -/

namespace History

variable {s t : History} {trace : List (Taken History Call)}

theorem contracted (h : storeSystem.Reachable s) : s.now.Contracted := by
  suffices hall : storeSystem.Reachable s ∧ s.now.Contracted from hall.2
  refine h.invariant (I := fun s => storeSystem.Reachable s ∧ s.now.Contracted) ?_ ?_
  · rintro _ rfl
    exact ⟨⟨[], .start rfl⟩, fun _ hw => absurd hw List.not_mem_nil⟩
  · rintro s call t ⟨hreach, hcontracted⟩ hstep
    refine ⟨hreach.next hstep, ?_⟩
    obtain ⟨hread, -, rfl⟩ := hstep
    simp only [Call.after]
    split
    · next db hexec =>
        exact Call.exec_contracted (fun w hw => (hread w hw).later hreach) hcontracted hexec
    · exact hcontracted

/-- One transaction completes the contract of a work item, or leaves it. -/
theorem step_completes (h : storeSystem.Reachable s) {call : Call} (hstep : storeSystem.step s call t)
    {id : String} {w w' : Work} (hw : s.now.works.find id = some w) (hw' : t.now.works.find id = some w') :
    ∃ c c', s.now.Names w c ∧ t.now.Names w' c' ∧ c.Completes c' := by
  obtain ⟨hread, -, rfl⟩ := hstep
  cases hexec : call.exec s.now with
  | error e =>
      simp only [Call.after, hexec] at hw'
      obtain rfl := Option.some.inj (hw.symm.trans hw')
      obtain ⟨c, hc⟩ := contracted h w (find_some hw).1
      refine ⟨c, c, hc, ?_, .refl c⟩
      simp only [Call.after, hexec]
      exact hc
  | ok db =>
      simp only [Call.after, hexec] at hw' ⊢
      exact Call.exec_completes (fun w hw => (hread w hw).later h) (contracted h) hexec hw hw'

end History

/-- **Contracts are completed, never changed.** Between any two moments of every run of the store: the
contract of a work item is read back at both, the later one has the goal, source, authorization, inputs,
mode and parent of the earlier one, its checks if it had any and its scope if it had one; and every
contract that was ever stored is read back under its identity. -/
theorem contracts_completed {trace : List (Taken History Call)} {s : History} (h : storeSystem.Run trace s) :
    (∀ e ∈ trace, ∀ w ∈ e.after.now.works.rows, ∃ w' ∈ s.now.works.rows, ∃ c c' : Contract, w'.id = w.id ∧
      e.after.now.load w.contract = .ok c ∧ s.now.load w'.contract = .ok c' ∧ c.Completes c') ∧
    ∀ e ∈ trace, ∀ c ∈ e.after.now.contracts.rows, s.now.load c.identity = .ok c := by
  refine ⟨fun e he w hw => ?_, fun e he c hc => ?_⟩
  · obtain ⟨hreach, hstep⟩ := h.taken he
    obtain ⟨c, hc⟩ := History.contracted (hreach.next hstep) w hw
    have hlast : storeSystem.Reachable s ∧
        ∃ w' c', s.now.works.find w.id = some w' ∧ s.now.Names w' c' ∧ c.Completes c' := by
      refine h.lasts (P := fun s => storeSystem.Reachable s ∧
        ∃ w' c', s.now.works.find w.id = some w' ∧ s.now.Names w' c' ∧ c.Completes c') ?_ he
          ⟨hreach.next hstep, w, c, find_of_mem hw, hc, .refl c⟩
      rintro s call t ⟨hs, w', c', hw', hc', hcompletes⟩ hnext
      obtain ⟨w'', hw'', -⟩ := (History.step_advanced hnext).works _ _ hw'
      obtain ⟨d, d', hd, hd', hnow⟩ := History.step_completes hs hnext hw' hw''
      obtain rfl : d = c' := Option.some.inj (hd.1.symm.trans hc'.1)
      exact ⟨hs.next hnext, w'', d', hw'', hd', hcompletes.trans hnow⟩
    obtain ⟨-, w', c', hw', hc', hcompletes⟩ := hlast
    refine ⟨w', (find_some hw').1, c, c', find_key hw', ?_, ?_, hcompletes⟩
    · rw [DB.load_eq_contract, DB.contract_eq_ok]
      exact hc.1
    · rw [DB.load_eq_contract, DB.contract_eq_ok]
      exact hc'.1
  · rw [DB.load_eq_contract]
    refine DB.contract_eq_ok.mpr (h.lasts (P := fun s => s.now.contracts.find c.identity = some c)
      (fun s call t hs hstep => (History.step_advanced hstep).contracts _ _ hs) he (find_of_mem hc))

theorem contracts_completed_firstCalls :
    (∃ c ∈ (History.origin.replay firstCalls).now.contracts.rows, c.goal = "repair") ∧
      ∀ e ∈ History.origin.taken firstCalls, ∀ c ∈ e.after.now.contracts.rows,
        (History.origin.replay firstCalls).now.load c.identity = .ok c :=
  ⟨by decide, (contracts_completed firstCalls_run).2⟩

end AutoAgents
