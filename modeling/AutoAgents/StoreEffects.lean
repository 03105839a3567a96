import AutoAgents.ControlStore

/-! What one transaction of the store can do. A work item keeps its identity, and any change of its
status, phase, contract, context, result or failure raises its revision; so a record that was read
earlier still describes the row as long as the revisions agree. -/

namespace AutoAgents

open Base Base.Table

/-! ### Rows that only move forward -/

/-- The row after a transaction that charges no call. -/
structure Work.Rewritten (w w' : Work) : Prop where
  id : w'.id = w.id
  workflow : w'.workflow = w.workflow
  parent : w'.parent = w.parent
  mode : w'.mode = w.mode
  maxCalls : w'.maxCalls = w.maxCalls
  calls : w'.calls = w.calls
  fenced : w' = w ∨ w.revision < w'.revision

/-- The row at some later moment. -/
structure Work.Later (w w' : Work) : Prop where
  id : w'.id = w.id
  workflow : w'.workflow = w.workflow
  parent : w'.parent = w.parent
  mode : w'.mode = w.mode
  maxCalls : w'.maxCalls = w.maxCalls
  calls : w.calls ≤ w'.calls
  fenced : w' = { w with calls := w'.calls } ∨ w.revision < w'.revision

namespace Work

theorem Rewritten.refl (w : Work) : Rewritten w w := ⟨rfl, rfl, rfl, rfl, rfl, rfl, Or.inl rfl⟩

theorem Rewritten.trans {a b c : Work} (h : Rewritten a b) (h' : Rewritten b c) :
    Rewritten a c where
  id := h'.id.trans h.id
  workflow := h'.workflow.trans h.workflow
  parent := h'.parent.trans h.parent
  mode := h'.mode.trans h.mode
  maxCalls := h'.maxCalls.trans h.maxCalls
  calls := h'.calls.trans h.calls
  fenced := by
    rcases h.fenced with rfl | hlt
    · exact h'.fenced
    · rcases h'.fenced with rfl | hlt'
      · exact Or.inr hlt
      · exact Or.inr (hlt.trans hlt')

theorem Rewritten.later {a b : Work} (h : Rewritten a b) : Later a b where
  id := h.id
  workflow := h.workflow
  parent := h.parent
  mode := h.mode
  maxCalls := h.maxCalls
  calls := h.calls.ge
  fenced := by
    rcases h.fenced with rfl | hlt
    · exact Or.inl rfl
    · exact Or.inr hlt

theorem Later.refl (w : Work) : Later w w := (Rewritten.refl w).later

theorem Later.revision {a b : Work} (h : Later a b) : a.revision ≤ b.revision := by
  rcases h.fenced with heq | hlt
  · rw [heq]
  · exact hlt.le

theorem Later.trans {a b c : Work} (h : Later a b) (h' : Later b c) : Later a c where
  id := h'.id.trans h.id
  workflow := h'.workflow.trans h.workflow
  parent := h'.parent.trans h.parent
  mode := h'.mode.trans h.mode
  maxCalls := h'.maxCalls.trans h.maxCalls
  calls := h.calls.trans h'.calls
  fenced := by
    rcases h.fenced with heq | hlt
    · rcases h'.fenced with heq' | hlt'
      · left
        rw [heq', heq]
      · right
        rw [heq] at hlt'
        exact hlt'
    · exact Or.inr (hlt.trans_le h'.revision)

/-- A record whose revision is still the row's is the row, but for calls charged since. -/
theorem Later.current {a b : Work} (h : Later a b) (hrev : b.revision = a.revision) :
    b = { a with calls := b.calls } := by
  rcases h.fenced with heq | hlt
  · exact heq
  · omega

end Work

/-- A workflow at some later moment. -/
structure Workflow.Later (w w' : Workflow) : Prop where
  id : w'.id = w.id
  root : w'.root = w.root
  maxCalls : w'.maxCalls = w.maxCalls
  calls : w.calls ≤ w'.calls

namespace Workflow

theorem Later.refl (w : Workflow) : Later w w := ⟨rfl, rfl, rfl, le_rfl⟩

theorem Later.trans {a b c : Workflow} (h : Later a b) (h' : Later b c) : Later a c :=
  ⟨h'.id.trans h.id, h'.root.trans h.root, h'.maxCalls.trans h.maxCalls, h.calls.trans h'.calls⟩

end Workflow

/-- Local work that may be repeated: every operation but a model call, a delivery and a persistence
action. -/
def Operation.repeatable (op : Operation) : Bool :=
  !op.model && op.kind != .deliver && op.kind != .persistence

/-- An operation keeps what it was reserved for. -/
structure Operation.Kept (op op' : Operation) : Prop where
  id : op'.id = op.id
  work : op'.work = op.work
  kind : op'.kind = op.kind
  ordinal : op'.ordinal = op.ordinal
  inputHash : op'.inputHash = op.inputHash
  model : op'.model = op.model

namespace Operation

theorem Kept.refl (op : Operation) : Kept op op := ⟨rfl, rfl, rfl, rfl, rfl, rfl⟩

theorem Kept.trans {a b c : Operation} (h : Kept a b) (h' : Kept b c) : Kept a c :=
  ⟨h'.id.trans h.id, h'.work.trans h.work, h'.kind.trans h.kind, h'.ordinal.trans h.ordinal,
    h'.inputHash.trans h.inputHash, h'.model.trans h.model⟩

/-- Consumption of a settled operation, or no change. -/
def Consumes (op op' : Operation) : Prop :=
  op' = op ∨ op.state.settled = true ∧ op' = { op with consumed := true }

theorem Consumes.refl (op : Operation) : Consumes op op := Or.inl rfl

theorem Consumes.trans {a b c : Operation} (h : Consumes a b) (h' : Consumes b c) :
    Consumes a c := by
  rcases h with rfl | ⟨ha, rfl⟩
  · exact h'
  · rcases h' with rfl | ⟨-, rfl⟩
    · exact Or.inr ⟨ha, rfl⟩
    · exact Or.inr ⟨ha, rfl⟩

end Operation

/-- The effect of a transaction that reserves nothing, with what it does to an operation. -/
structure DB.Wrote (M : Operation → Operation → Prop) (db db' : DB) : Prop where
  works : Grown (fun w => w.calls = 0) Work.Rewritten db.works db'.works
  workflows : Grown (fun w => w.calls = 0) Eq db.workflows db'.workflows
  contracts : Grown (fun _ => True) Eq db.contracts db'.contracts
  operations : Grown (fun _ => False) M db.operations db'.operations
  rooted : ∀ w ∈ db'.works.rows, (∃ old ∈ db.works.rows, old.workflow = w.workflow) ∨
    ∃ wf, db'.workflows.find w.workflow = some wf

namespace DB

variable {M : Operation → Operation → Prop} {db db' db'' : DB}

theorem Wrote.refl (hM : ∀ op, M op op) (db : DB) : Wrote M db db :=
  ⟨.refl .refl _, .refl (fun _ => rfl) _, .refl (fun _ => rfl) _, .refl hM _,
    fun w hw => Or.inl ⟨w, hw, rfl⟩⟩

theorem Wrote.trans (hM : ∀ a b c, M a b → M b c → M a c) (h : Wrote M db db')
    (h' : Wrote M db' db'') : Wrote M db db'' where
  works := h.works.trans (fun _ _ _ => .trans) (fun _ _ h hr => hr.calls.trans h) h'.works
  workflows := h.workflows.trans (fun _ _ _ => Eq.trans) (fun _ _ h hr => hr ▸ h) h'.workflows
  contracts := h.contracts.trans (fun _ _ _ => Eq.trans) (fun _ _ _ _ => trivial) h'.contracts
  operations := h.operations.trans hM (fun _ _ h _ => h) h'.operations
  rooted w hw := by
    rcases h'.rooted w hw with ⟨mid, hmid, hworkflow⟩ | hwf
    · rw [← hworkflow]
      rcases h.rooted mid hmid with hold | ⟨wf, hwf⟩
      · exact Or.inl hold
      · obtain ⟨wf', hwf', -⟩ := h'.workflows.find hwf
        exact Or.inr ⟨wf', hwf'⟩
    · exact Or.inr hwf

theorem Wrote.mono {M' : Operation → Operation → Prop} (hM : ∀ op op', M op op' → M' op op')
    (h : Wrote M db db') : Wrote M' db db' :=
  { h with operations := h.operations.mono (fun _ h => h) hM }

theorem Wrote.event (h : Wrote M db db') (work : String) (data : EventData) :
    Wrote M db (db'.event work data) := ⟨h.works, h.workflows, h.contracts, h.operations, h.rooted⟩

theorem Wrote.modifyWork (db : DB) (id : String) {f : Work → Work} (hf : ∀ w, (f w).id = w.id)
    (h : ∀ w, Work.Rewritten w (f w)) : Wrote Eq db { db with works := db.works.modify id f hf } where
  works := Grown.modify id hf Work.Rewritten.refl fun w _ => h w
  workflows := Grown.refl (fun _ => rfl) _
  contracts := Grown.refl (fun _ => rfl) _
  operations := Grown.refl (fun _ => rfl) _
  rooted w hw := by
    rcases (mem_rows_modify hf).mp hw with ⟨old, hold, rfl⟩ | ⟨hold, -⟩
    · exact Or.inl ⟨old, (find_some hold).1, (h old).workflow.symm⟩
    · exact Or.inl ⟨w, hold, rfl⟩

theorem Wrote.insertWork (db : DB) {w : Work} (hcalls : w.calls = 0)
    (hroot : ∃ wf, db.workflows.find w.workflow = some wf) (h : db.works.find w.id = none) :
    Wrote Eq db { db with works := db.works.insert w h } where
  works := Grown.insert (fun w => w.calls = 0) Work.Rewritten.refl hcalls h
  workflows := Grown.refl (fun _ => rfl) _
  contracts := Grown.refl (fun _ => rfl) _
  operations := Grown.refl (fun _ => rfl) _
  rooted row hrow := by
    rcases List.mem_append.mp hrow with hold | hnew
    · exact Or.inl ⟨row, hold, rfl⟩
    · obtain rfl := List.mem_singleton.mp hnew
      exact Or.inr hroot

theorem Wrote.insertWorkflow (db : DB) {wf : Workflow} (hcalls : wf.calls = 0)
    (h : db.workflows.find wf.id = none) :
    Wrote Eq db { db with workflows := db.workflows.insert wf h } where
  works := Grown.refl Work.Rewritten.refl _
  workflows := Grown.insert (fun w => w.calls = 0) (fun _ => rfl) hcalls h
  contracts := Grown.refl (fun _ => rfl) _
  operations := Grown.refl (fun _ => rfl) _
  rooted w hw := Or.inl ⟨w, hw, rfl⟩

theorem Wrote.insertContract (db : DB) (c : Contract) :
    Wrote Eq db { db with contracts := db.contracts.insertOrIgnore c } where
  works := Grown.refl Work.Rewritten.refl _
  workflows := Grown.refl (fun _ => rfl) _
  contracts := Grown.insertOrIgnore (fun _ => True) (fun _ => rfl) trivial
  operations := Grown.refl (fun _ => rfl) _
  rooted w hw := Or.inl ⟨w, hw, rfl⟩

theorem Wrote.modifyOperation (db : DB) (id : OperationId) {f : Operation → Operation}
    (hf : ∀ op, (f op).id = op.id) (hM : ∀ op, M op op)
    (h : ∀ op, db.operations.find id = some op → M op (f op)) :
    Wrote M db { db with operations := db.operations.modify id f hf } where
  works := Grown.refl Work.Rewritten.refl _
  workflows := Grown.refl (fun _ => rfl) _
  contracts := Grown.refl (fun _ => rfl) _
  operations := Grown.modify id hf hM h
  rooted w hw := Or.inl ⟨w, hw, rfl⟩

/-- A transaction that leaves the operations alone. -/
theorem Wrote.consumes (h : Wrote Eq db db') : Wrote Operation.Consumes db db' :=
  h.mono fun _ _ h => Or.inl h.symm

theorem Wrote.next (h : Wrote Eq db db') (h' : Wrote Eq db' db'') : Wrote Eq db db'' :=
  Wrote.trans (fun _ _ _ => Eq.trans) h h'

theorem Wrote.consuming (h : Wrote Operation.Consumes db db')
    (h' : Wrote Operation.Consumes db' db'') : Wrote Operation.Consumes db db'' :=
  Wrote.trans (fun _ _ _ => Operation.Consumes.trans) h h'

/-! ### The methods -/

theorem work_eq_ok {identity : String} {w : Work} :
    db.work identity = .ok w ↔ db.works.find identity = some w := by
  unfold work
  split <;> simp_all

theorem contract_eq_ok {identity : ContractId} {c : Contract} :
    db.contract identity = .ok c ↔ db.contracts.find identity = some c := by
  unfold contract
  split <;> simp_all

theorem contract_identity {identity : ContractId} {c : Contract}
    (h : db.contract identity = .ok c) : c.identity = identity :=
  find_key (contract_eq_ok.mp h)

/-- The row `_insert_work` writes. -/
def newWork (c : Contract) (parent : Option String) (phase : Phase) (limit : Nat) : Work :=
  { id := c.workId, workflow := c.workflowId, parent, mode := c.mode, phase,
    contract := c.identity, maxCalls := limit }

theorem insertWork_ok {c : Contract} {parent : Option String} {phase : Phase} {limit : Nat}
    (h : db.insertWork c parent phase limit = .ok db') :
    (∃ wf, db.workflows.find c.workflowId = some wf) ∧
      ∃ hfresh : db.works.find (newWork c parent phase limit).id = none,
        db' = { db with
          contracts := db.contracts.insertOrIgnore c
          works := db.works.insert (newWork c parent phase limit) hfresh } := by
  unfold insertWork at h
  rw [guard_ok] at h
  obtain ⟨hwf, h⟩ := h
  refine ⟨Option.ne_none_iff_exists'.mp (by simpa using hwf), ?_⟩
  split at h
  · cases h
  · next works hins =>
      cases h
      obtain ⟨hfresh, rfl⟩ := insert?_eq_some.mp hins
      exact ⟨hfresh, rfl⟩

theorem insertWork_wrote {c : Contract} {parent : Option String} {phase : Phase} {limit : Nat}
    (h : db.insertWork c parent phase limit = .ok db') : Wrote Eq db db' := by
  obtain ⟨hroot, hfresh, rfl⟩ := insertWork_ok h
  exact (Wrote.insertContract db c).next
    (Wrote.insertWork { db with contracts := db.contracts.insertOrIgnore c } rfl hroot hfresh)

/-- Everything a transition of a row can do. -/
theorem transitionRow_ok {w : Work} {status : Status} {changes : Changes}
    (h : db.transitionRow w status changes = .ok db') :
    ∃ current, db.works.find w.id = some current ∧ current.revision = w.revision ∧
      (status = current.status ∨ status ∈ current.status.transitions) ∧
      (status = .completed → ∀ op ∈ db.operations.rows, db.blocksCompletion current w op = false) ∧
      db' = ({ db with
        works := db.works.modify w.id (changed status changes) fun _ => rfl }).event w.id
          (.transition current.status status (changes.phase.getD current.phase)) := by
  unfold transitionRow at h
  split at h
  · cases h
  · next current hfind =>
      simp only [guard_ok] at h
      obtain ⟨hrev, hallowed, hopen, h⟩ := h
      cases h
      refine ⟨current, hfind, not_not.mp hrev, ?_, ?_, rfl⟩
      · by_cases heq : status = current.status
        · exact Or.inl heq
        · exact Or.inr (not_not.mp fun hnot => hallowed ⟨heq, hnot⟩)
      · intro hcompleted op hop
        by_contra hblock
        exact hopen ⟨hcompleted, List.any_eq_true.mpr ⟨op, hop, by simpa using hblock⟩⟩

theorem changed_id (status : Status) (changes : Changes) (w : Work) :
    (changed status changes w).id = w.id := rfl

theorem changed_rewritten (status : Status) (changes : Changes) (w : Work) :
    Work.Rewritten w (changed status changes w) :=
  ⟨rfl, rfl, rfl, rfl, rfl, rfl, Or.inr (Nat.lt_succ_self _)⟩

theorem transitionRow_wrote {w : Work} {status : Status} {changes : Changes}
    (h : db.transitionRow w status changes = .ok db') : Wrote Eq db db' := by
  obtain ⟨current, -, -, -, -, rfl⟩ := transitionRow_ok h
  exact (Wrote.modifyWork db w.id _ (changed_rewritten status changes)).event _ _

theorem consume_ok {identity : OperationId} (h : db.consume identity = .ok db') :
    ∃ op, db.operations.find identity = some op ∧ op.state.settled = true ∧
      db' = { db with
        operations := db.operations.modify identity (fun op => { op with consumed := true })
          fun _ => rfl } := by
  unfold consume at h
  split at h
  · cases h
  · next op hfind =>
      rw [guard_ok] at h
      obtain ⟨hsettled, h⟩ := h
      cases h
      exact ⟨op, hfind, by simpa using hsettled, rfl⟩

theorem consume_wrote {identity : OperationId} (h : db.consume identity = .ok db') :
    Wrote Operation.Consumes db db' := by
  obtain ⟨op, hfind, hsettled, rfl⟩ := consume_ok h
  refine Wrote.modifyOperation db identity _ Operation.Consumes.refl fun row hrow => ?_
  obtain rfl := Option.some.inj (hfind.symm.trans hrow)
  exact Or.inr ⟨hsettled, rfl⟩

theorem consumeAll_wrote {identities : List OperationId}
    (h : identities.foldlM consume db = .ok db') : Wrote Operation.Consumes db db' :=
  foldlM_keeps (Wrote Operation.Consumes db) (fun _ _ _ hd hstep => hd.consuming (consume_wrote hstep))
    (Wrote.refl Operation.Consumes.refl db) h

end DB
end AutoAgents
