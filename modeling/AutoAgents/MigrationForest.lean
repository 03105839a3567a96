import AutoAgents.MigrationImport
import AutoAgents.StoreCalls

/-! The forest that `migrate` builds. One pass over the items puts each under its legacy parent, in the
workflow and under the contract the parent has at that moment. The result is consistent exactly when no
item comes before a parent that is itself put under another. -/

namespace AutoAgents

open Base Base.Table
open Git (Path Commit)

/-! ### Writes that leave the forest alone -/

/-- Where a work item stands: its workflow, its parent and its contract. -/
def Work.place (w : Work) : String × Option String × ContractId := (w.workflow, w.parent, w.contract)

/-- No work item, workflow or contract has moved. -/
structure DB.KeepsForest (db db' : DB) : Prop where
  works : ∀ id, (db'.works.find id).map Work.place = (db.works.find id).map Work.place
  workflows : ∀ id, (db'.workflows.find id).map (·.root) = (db.workflows.find id).map (·.root)
  contracts : db'.contracts = db.contracts

namespace DB.KeepsForest

variable {db db' db'' : DB}

theorem refl (db : DB) : db.KeepsForest db := ⟨fun _ => rfl, fun _ => rfl, rfl⟩

theorem trans (h : db.KeepsForest db') (h' : db'.KeepsForest db'') : db.KeepsForest db'' :=
  ⟨fun id => (h'.works id).trans (h.works id), fun id => (h'.workflows id).trans (h.workflows id),
    h'.contracts.trans h.contracts⟩

theorem event (h : db.KeepsForest db') (work : String) (data : EventData) :
    db.KeepsForest (db'.event work data) := ⟨h.works, h.workflows, h.contracts⟩

theorem modifyWork (db : DB) (id : String) {f : Work → Work} (hf : ∀ w, (f w).id = w.id)
    (hplace : ∀ w, (f w).place = w.place) :
    db.KeepsForest { db with works := db.works.modify id f hf } where
  works id' := by
    rw [find_modify]
    split
    · rw [Option.map_map]
      exact congrArg (fun g => (db.works.find id').map g) (funext hplace)
    · rfl
  workflows _ := rfl
  contracts := rfl

theorem transition {w : Work} {status : Status} {changes : Changes} {operation : Option OperationId}
    {operations : List OperationId} (h : db.transition w status changes operation operations = .ok db') :
    db.KeepsForest db' := by
  obtain ⟨mid, hrow, hconsume⟩ := bind_ok.mp h
  obtain ⟨current, -, -, -, -, rfl⟩ := transitionRow_ok hrow
  have hchanged := modifyWork db w.id (f := changed status changes) (fun _ => rfl) fun _ => rfl
  refine foldlM_keeps db.KeepsForest (fun a _ b ha hb => ha.trans ?_)
    (hchanged.event _ _) hconsume
  obtain ⟨-, -, -, rfl⟩ := consume_ok hb
  exact ⟨fun _ => rfl, fun _ => rfl, rfl⟩

theorem find (h : db.KeepsForest db') {id : String} {w' : Work} (hw : db'.works.find id = some w') :
    ∃ w, db.works.find id = some w ∧ w'.place = w.place := by
  have hsame := h.works id
  rw [hw] at hsame
  cases hfind : db.works.find id with
  | none =>
      rw [hfind] at hsame
      cases hsame
  | some w =>
      rw [hfind] at hsame
      exact ⟨w, rfl, Option.some.inj hsame⟩

theorem find' (h : db.KeepsForest db') {id : String} {w : Work} (hw : db.works.find id = some w) :
    ∃ w', db'.works.find id = some w' ∧ w'.place = w.place := by
  have hsame := h.works id
  rw [hw] at hsame
  cases hfind : db'.works.find id with
  | none =>
      rw [hfind] at hsame
      cases hsame
  | some w' =>
      rw [hfind] at hsame
      exact ⟨w', rfl, Option.some.inj hsame⟩

theorem workflow (h : db.KeepsForest db') {id : String} {wf' : Workflow}
    (hwf : db'.workflows.find id = some wf') : ∃ wf, db.workflows.find id = some wf ∧ wf'.root = wf.root := by
  have hsame := h.workflows id
  rw [hwf] at hsame
  cases hfind : db.workflows.find id with
  | none =>
      rw [hfind] at hsame
      cases hsame
  | some wf =>
      rw [hfind] at hsame
      exact ⟨wf, rfl, Option.some.inj hsame⟩

theorem importWorkspace {id : String} {retained : Retained}
    (h : AutoAgents.importWorkspace db id retained = .ok db') : db.KeepsForest db' := by
  unfold AutoAgents.importWorkspace at h
  obtain ⟨node, -, h⟩ := bind_ok.mp h
  obtain ⟨mid, hmid, h⟩ := bind_ok.mp h
  obtain ⟨node', -, h⟩ := bind_ok.mp h
  refine trans ?_ (transition h)
  unfold blockPrototype at hmid
  split at hmid
  · exact transition hmid
  · cases hmid
    exact refl db

theorem markActive (handoffs : List Handoff) (ids : List String) (db : DB) (r : LegacyRecord) :
    db.KeepsForest (markActive handoffs ids db r) := by
  unfold AutoAgents.markActive
  split
  · exact refl db
  · exact modifyWork db r.id _ fun _ => rfl

theorem markAll (handoffs : List Handoff) (ids : List String) (db : DB) (records : List LegacyRecord) :
    db.KeepsForest (records.foldl (AutoAgents.markActive handoffs ids) db) := by
  induction records generalizing db with
  | nil => exact refl db
  | cons r records ih => exact (markActive handoffs ids db r).trans (ih _)

theorem importCalls {ids : List String} {before calls : List LegacyCall}
    (h : AutoAgents.importCalls ids before db calls = .ok db') : db.KeepsForest db' := by
  induction calls generalizing before db with
  | nil =>
      obtain rfl := pure_ok.mp h
      exact refl db
  | cons call calls ih =>
      obtain ⟨mid, hmid, hrest⟩ := bind_ok.mp h
      refine trans ?_ (ih hrest)
      unfold importCall at hmid
      split at hmid
      · cases hmid
        exact ⟨fun _ => rfl, fun _ => rfl, rfl⟩
      · split at hmid
        · cases hmid
        · cases hmid
          exact ⟨fun _ => rfl, fun _ => rfl, rfl⟩

theorem sumCalls (db : DB) : db.KeepsForest (sumCalls db) where
  works _ := rfl
  workflows id := by
    simp only [AutoAgents.sumCalls, find_map, Option.map_map]
    refine congrArg (fun g => (db.workflows.find id).map g) (funext fun wf => ?_)
    simp only [Function.comp_apply]
    split <;> rfl
  contracts := rfl

end DB.KeepsForest

/-! ### The first loop: one root for each item -/

theorem DB.createWorkflow_ok {db db' : DB} {workflow work goal : String} {mode : Mode} {source : Commit}
    {authorization : Authorization} {inputs : Inputs} {scope : List Path} {checks : List VerificationSpec}
    {maxCalls : Option Nat} {nodeLimit : Nat}
    (h : db.createWorkflow workflow work mode goal source authorization inputs scope checks maxCalls
      nodeLimit = .ok db') :
    ∃ c : Contract, c.workflowId = workflow ∧ c.workId = work ∧ c.parentContract = [] ∧
      ∃ (hflow : db.workflows.find workflow = none) (hwork : db.works.find c.workId = none),
        db' = { db with
          workflows := db.workflows.insert { id := workflow, root := work, maxCalls } hflow
          contracts := db.contracts.insertOrIgnore c
          works := db.works.insert (newWork c none (rootPhase mode) nodeLimit) hwork } := by
  simp only [createWorkflow, guard_ok, bind_ok] at h
  obtain ⟨-, c, hbuild, h⟩ := h
  obtain ⟨hworkflow, hwork, -, -, -, -, -, -, -, hparent⟩ := Contract.build_eq_ok hbuild
  split at h
  · cases h
  · next workflows hinsert =>
      obtain ⟨hflow, rfl⟩ := insert?_eq_some.mp hinsert
      obtain ⟨-, hfresh, rfl⟩ := insertWork_ok h
      exact ⟨c, hworkflow, hwork, hparent, hflow, hfresh, rfl⟩

/-- Every item is the root of a workflow of its own. -/
structure Rooted (fresh : String → String) (ids : List String) (db : DB) : Prop where
  nodup : ids.Nodup
  there : ∀ id, id ∈ ids ↔ ∃ w, db.works.find id = some w
  root : ∀ id w, db.works.find id = some w → w.workflow = fresh id ∧ w.parent = none ∧
    ∃ c, db.contracts.find w.contract = some c ∧ c.parentContract = []
  flow : ∀ id ∈ ids, ∃ wf, db.workflows.find (fresh id) = some wf ∧ wf.root = id
  flows : ∀ key wf, db.workflows.find key = some wf → wf.root ∈ ids ∧ key = fresh wf.root

namespace Rooted

variable {fresh : String → String} {ids : List String} {db db' : DB}

theorem empty (fresh : String → String) : Rooted fresh [] DB.empty where
  nodup := List.nodup_nil
  there id := by
    constructor
    · intro h
      cases h
    · rintro ⟨_, h⟩
      cases h
  root _ _ h := by cases h
  flow _ h := by cases h
  flows _ _ h := by cases h

theorem keeps (h : Rooted fresh ids db) (hkeeps : db.KeepsForest db') : Rooted fresh ids db' where
  nodup := h.nodup
  there id := by
    rw [h.there]
    constructor
    · rintro ⟨w, hw⟩
      obtain ⟨w', hw', -⟩ := hkeeps.find' hw
      exact ⟨w', hw'⟩
    · rintro ⟨w', hw'⟩
      obtain ⟨w, hw, -⟩ := hkeeps.find hw'
      exact ⟨w, hw⟩
  root id w' hw' := by
    obtain ⟨w, hw, hplace⟩ := hkeeps.find hw'
    obtain ⟨hworkflow, hparent, hcontract⟩ := h.root id w hw
    simp only [Work.place, Prod.mk.injEq] at hplace
    rw [hplace.1, hplace.2.1, hplace.2.2, hkeeps.contracts]
    exact ⟨hworkflow, hparent, hcontract⟩
  flow id hid := by
    obtain ⟨wf, hwf, hroot⟩ := h.flow id hid
    have hsame := hkeeps.workflows (fresh id)
    rw [hwf] at hsame
    obtain ⟨wf', hwf', hroot'⟩ := Option.map_eq_some_iff.mp hsame
    exact ⟨wf', hwf', hroot'.trans hroot⟩
  flows key wf' hwf' := by
    obtain ⟨wf, hwf, hroot⟩ := hkeeps.workflow hwf'
    rw [hroot]
    exact h.flows key wf hwf

theorem create (h : Rooted fresh ids db) {work goal : String} {mode : Mode} {source : Commit}
    {authorization : Authorization} {inputs : Inputs} {scope : List Path} {checks : List VerificationSpec}
    {maxCalls : Option Nat} {nodeLimit : Nat}
    (hcreate : db.createWorkflow (fresh work) work mode goal source authorization inputs scope checks
      maxCalls nodeLimit = .ok db') : Rooted fresh (ids ++ [work]) db' := by
  obtain ⟨c, hworkflow, rfl, hparent, hflow, hwork, rfl⟩ := DB.createWorkflow_ok hcreate
  have hnew : c.workId ∉ ids := by
    rw [h.there, hwork]
    rintro ⟨w, hw⟩
    cases hw
  have hfind : ∀ id, (db.works.insert (DB.newWork c none (DB.rootPhase mode) nodeLimit) hwork).find id =
      if c.workId = id then some (DB.newWork c none (DB.rootPhase mode) nodeLimit)
      else db.works.find id := fun id => find_insert _ _ _ id
  have hcontract : ∀ key d, db.contracts.find key = some d →
      (db.contracts.insertOrIgnore c).find key = some d := by
    intro key d hd
    rw [find_insertOrIgnore, hd]
    split <;> rfl
  refine ⟨?_, fun id => ?_, fun id w hw => ?_, fun id hid => ?_, fun key wf hwf => ?_⟩
  · exact List.nodup_append.mpr ⟨h.nodup, List.nodup_singleton _,
      fun a ha b hb hab => hnew (List.mem_singleton.mp hb ▸ hab ▸ ha)⟩
  · rw [List.mem_append, List.mem_singleton, hfind]
    by_cases hid : c.workId = id
    · simp only [hid, or_true, if_true, Option.some.injEq, exists_eq']
    · have hid' : id ≠ c.workId := fun heq => hid heq.symm
      simp only [hid, hid', if_false, h.there, or_false]
  · rw [hfind] at hw
    split at hw
    · next hid =>
        cases hw
        refine ⟨?_, rfl, c, ?_, hparent⟩
        · rw [← hid]
          exact hworkflow
        · show (db.contracts.insertOrIgnore c).find c.identity = some c
          rw [find_insertOrIgnore, if_pos rfl]
          cases hold : db.contracts.find c.identity with
          | none => rfl
          | some d => rw [Option.getD_some, Contract.identity_injective (find_key hold)]
    · obtain ⟨hflow', hparent', d, hd, hroot⟩ := h.root id w hw
      exact ⟨hflow', hparent', d, hcontract _ _ hd, hroot⟩
  · show ∃ wf, (db.workflows.insert _ hflow).find (fresh id) = some wf ∧ wf.root = id
    rw [find_insert]
    rcases List.mem_append.mp hid with hold | hself
    · split
      · next heq =>
          obtain ⟨wf, hwf, -⟩ := h.flow id hold
          rw [show fresh c.workId = fresh id from heq, hwf] at hflow
          cases hflow
      · exact h.flow id hold
    · obtain rfl := List.mem_singleton.mp hself
      rw [if_pos rfl]
      exact ⟨_, rfl, rfl⟩
  · replace hwf : (db.workflows.insert _ hflow).find key = some wf := hwf
    rw [find_insert] at hwf
    split at hwf
    · next heq =>
        cases hwf
        exact ⟨List.mem_append_right _ (List.mem_singleton.mpr rfl), heq.symm⟩
    · obtain ⟨hroot, hkey⟩ := h.flows key wf hwf
      exact ⟨List.mem_append_left _ hroot, hkey⟩

theorem importItem (h : Rooted fresh ids db) {handoffs : List Handoff} {calls : List LegacyCall}
    {r : LegacyRecord} (himport : importItem handoffs calls fresh db r = .ok db') :
    Rooted fresh (ids ++ [r.id]) db' := by
  unfold AutoAgents.importItem at himport
  obtain ⟨checks, -, himport⟩ := bind_ok.mp himport
  obtain ⟨mid, hmid, himport⟩ := bind_ok.mp himport
  have hrow := fun charged => (h.create hmid).keeps (DB.KeepsForest.modifyWork mid r.id
    (f := imported (planItem handoffs r) charged) (fun _ => rfl) fun _ => rfl)
  dsimp only at himport
  split at himport
  · obtain ⟨retained, -, himport⟩ := bind_ok.mp himport
    exact (hrow _).keeps (DB.KeepsForest.importWorkspace himport)
  · obtain rfl := pure_ok.mp himport
    exact hrow _

/-- After the first loop every item is a root. -/
theorem importAll {handoffs : List Handoff} {calls : List LegacyCall} {records : List LegacyRecord}
    (h : Rooted fresh ids db)
    (himport : records.foldlM (AutoAgents.importItem handoffs calls fresh) db = .ok db') :
    Rooted fresh (ids ++ records.map (·.id)) db' := by
  induction records generalizing ids db with
  | nil =>
      obtain rfl := pure_ok.mp himport
      rwa [List.map_nil, List.append_nil]
  | cons r records ih =>
      rw [List.foldlM_cons, bind_ok] at himport
      obtain ⟨mid, hmid, hrest⟩ := himport
      have hall := ih (h.importItem hmid) hrest
      rwa [List.append_assoc, List.singleton_append] at hall

end Rooted

/-! ### The second loop: items under their parents -/

theorem reparent_ok {ids : List String} {db db' : DB} {item : PlanItem}
    (h : reparent ids db item = .ok db') (howned : item.parent ∈ ids) :
    ∃ parent child pc, ∃ updated : Contract, db.works.find item.parent = some parent ∧
      db.works.find item.id = some child ∧ db.contracts.find parent.contract = some pc ∧
      updated.workflowId = parent.workflow ∧ updated.parentContract = parent.contract ∧
      db'.works = db.works.modify item.id (reparented parent updated) (reparented_id parent updated) ∧
      db'.contracts = db.contracts.insertOrIgnore updated ∧
      db'.workflows = db.workflows.filter fun wf =>
        wf.id != child.workflow || db'.works.rows.any (·.workflow == wf.id) := by
  unfold reparent at h
  rw [if_neg (not_not.mpr howned)] at h
  simp only [bind_ok, pure_ok, DB.work_eq_ok, DB.contract_eq_ok] at h
  obtain ⟨parent, hparent, child, hchild, pc, hpc, cc, -, rfl⟩ := h
  have hid : child.id = item.id := find_key hchild
  have hcontract : pc.identity = parent.contract := find_key hpc
  refine ⟨parent, child, pc, _, hparent, hchild, hpc, rfl, hcontract, ?_, rfl, rfl⟩
  simp only [hid]

/-- The item has not been put under a parent. -/
def Root (fresh : String → String) (db : DB) (item : PlanItem) : Prop :=
  ∃ w, db.works.find item.id = some w ∧ w.workflow = fresh item.id ∧ w.parent = none ∧
    w.contract.length = 1

/-- The item is under its legacy parent, in its workflow and under its current contract. -/
def Held (db : DB) (item : PlanItem) : Prop :=
  ∃ w p c, db.works.find item.id = some w ∧ db.works.find item.parent = some p ∧
    w.parent = some p.id ∧ w.workflow = p.workflow ∧ db.contracts.find w.contract = some c ∧
    c.workflowId = p.workflow ∧ c.parentContract = p.contract

/-- What the second loop has done to the items it has come to. -/
structure Midway (fresh : String → String) (ids : List String) (moved rest : List PlanItem) (db : DB) :
    Prop where
  roots : ∀ item ∈ moved ++ rest, item ∈ rest ∨ item.parent ∉ ids → Root fresh db item
  owned : ∀ item ∈ moved, item.parent ∈ ids →
    ∃ w, db.works.find item.id = some w ∧ 2 ≤ w.contract.length

section

variable {fresh : String → String} {ids : List String} {moved rest : List PlanItem} {db db' : DB}
  {item : PlanItem}

theorem Root.of_find_eq (h : Root fresh db item) (hsame : db'.works.find item.id = db.works.find item.id) :
    Root fresh db' item := by
  obtain ⟨w, hw, hroot⟩ := h
  exact ⟨w, hsame.trans hw, hroot⟩

/-- An item that is put under a parent gets a contract one longer than the parent's. -/
theorem reparent_length (h : reparent ids db item = .ok db') (howned : item.parent ∈ ids) :
    ∃ w p, db'.works.find item.id = some w ∧ db.works.find item.parent = some p ∧
      w.contract.length = p.contract.length + 1 ∧ 0 < p.contract.length := by
  obtain ⟨parent, child, pc, updated, hparent, hchild, hpc, -, hcontract, hworks, -, -⟩ :=
    reparent_ok h howned
  refine ⟨reparented parent updated child, parent, ?_, hparent, ?_, ?_⟩
  · rw [hworks, find_modify_self, hchild]
    rfl
  · show updated.identity.length = _
    rw [Contract.identity, List.length_cons, hcontract]
  · have hidentity : pc.identity = parent.contract := find_key hpc
    rw [← hidentity, Contract.identity, List.length_cons]
    omega

theorem reparent_other (h : reparent ids db item = .ok db') {id : String} (hne : id ≠ item.id) :
    db'.works.find id = db.works.find id := by
  by_cases howned : item.parent ∈ ids
  · obtain ⟨parent, child, pc, updated, -, -, -, -, -, hworks, -, -⟩ := reparent_ok h howned
    rw [hworks, find_modify_ne _ _ _ hne]
  · unfold reparent at h
    rw [if_pos howned] at h
    cases h
    rfl

theorem Midway.reparent (h : Midway fresh ids moved (item :: rest) db)
    (hnodup : ((moved ++ item :: rest).map (·.id)).Nodup) (hstep : reparent ids db item = .ok db') :
    Midway fresh ids (moved ++ [item]) rest db' := by
  have hother : ∀ x ∈ moved ++ rest, x.id ≠ item.id := by
    rw [List.map_append, List.map_cons] at hnodup
    obtain ⟨-, hright, hdisjoint⟩ := List.nodup_append.mp hnodup
    intro x hx
    rcases List.mem_append.mp hx with hmoved | hrest
    · exact hdisjoint _ (List.mem_map_of_mem hmoved) _ List.mem_cons_self
    · intro heq
      exact (List.nodup_cons.mp hright).1 (heq ▸ List.mem_map_of_mem hrest)
  constructor
  · intro x hx hkind
    rcases List.mem_append.mp hx with hmoved | hrest
    · rcases List.mem_append.mp hmoved with hmoved | hself
      · have hne := hother x (List.mem_append_left _ hmoved)
        refine (h.roots x (List.mem_append_left _ hmoved) ?_).of_find_eq (reparent_other hstep hne)
        exact hkind.imp (List.mem_cons_of_mem _) id
      · obtain rfl := List.mem_singleton.mp hself
        rcases hkind with hrest | hroot
        · exact absurd rfl (hother x (List.mem_append_right _ hrest))
        · unfold AutoAgents.reparent at hstep
          rw [if_pos hroot] at hstep
          cases hstep
          exact h.roots x (List.mem_append_right _ List.mem_cons_self) (Or.inr hroot)
    · have hne := hother x (List.mem_append_right _ hrest)
      refine (h.roots x (List.mem_append_right _ (List.mem_cons_of_mem _ hrest))
        (Or.inl (List.mem_cons_of_mem _ hrest))).of_find_eq (reparent_other hstep hne)
  · intro x hx howned
    rcases List.mem_append.mp hx with hmoved | hself
    · rw [reparent_other hstep (hother x (List.mem_append_left _ hmoved))]
      exact h.owned x hmoved howned
    · obtain rfl := List.mem_singleton.mp hself
      obtain ⟨w, p, hw, -, hlength, hpos⟩ := reparent_length hstep howned
      exact ⟨w, hw, by omega⟩

theorem Midway.reparentAll {first : List PlanItem} (h : Midway fresh ids moved (first ++ rest) db)
    (hnodup : ((moved ++ (first ++ rest)).map (·.id)).Nodup)
    (hrun : first.foldlM (AutoAgents.reparent ids) db = .ok db') :
    Midway fresh ids (moved ++ first) rest db' := by
  induction first generalizing moved db with
  | nil =>
      obtain rfl := pure_ok.mp hrun
      rwa [List.append_nil]
  | cons item first ih =>
      rw [List.foldlM_cons, bind_ok] at hrun
      obtain ⟨mid, hmid, hrest⟩ := hrun
      have hsplit : (moved ++ [item]) ++ (first ++ rest) = moved ++ (item :: first ++ rest) := by
        rw [List.append_assoc, List.singleton_append, List.cons_append]
      have hall := ih (h.reparent hnodup hmid) (hsplit ▸ hnodup) hrest
      rwa [List.append_assoc, List.singleton_append] at hall

theorem reparentAll_other {rest : List PlanItem} (hrun : rest.foldlM (reparent ids) db = .ok db') {id : String}
    (hne : ∀ x ∈ rest, id ≠ x.id) : db'.works.find id = db.works.find id := by
  induction rest generalizing db with
  | nil =>
      obtain rfl := pure_ok.mp hrun
      rfl
  | cons item rest ih =>
      rw [List.foldlM_cons, bind_ok] at hrun
      obtain ⟨mid, hmid, hrest⟩ := hrun
      rw [ih hrest fun x hx => hne x (List.mem_cons_of_mem _ hx),
        reparent_other hmid (hne item List.mem_cons_self)]

/-- The loop, from an item on. -/
theorem reparentAll_append {first rest : List PlanItem}
    (hrun : (first ++ rest).foldlM (reparent ids) db = .ok db') :
    ∃ mid, first.foldlM (reparent ids) db = .ok mid ∧ rest.foldlM (reparent ids) mid = .ok db' := by
  rw [List.foldlM_append] at hrun
  exact bind_ok.mp hrun

end

/-! ### Parents first -/

/-- No item is its own parent, or comes before a parent that is itself put under another. -/
def ParentsFirst (items : List PlanItem) : Prop :=
  (∀ item ∈ items, item.parent ≠ item.id) ∧
    items.Pairwise fun a b => b.parent ∈ items.map (·.id) → a.parent ≠ b.id

instance (items : List PlanItem) : Decidable (ParentsFirst items) := by
  unfold ParentsFirst
  infer_instance

/-- What holds on the way, when parents come first. -/
structure Ordered (fresh : String → String) (ids : List String) (moved rest : List PlanItem) (db : DB) :
    Prop where
  midway : Midway fresh ids moved rest db
  held : ∀ item ∈ moved, item.parent ∈ ids → Held db item
  /-- Nothing else stands in the workflow of an item that is still to be put under a parent. -/
  alone : ∀ item ∈ rest, item.parent ∈ ids → ∀ id w, db.works.find id = some w →
    w.workflow = fresh item.id → id = item.id
  flows : ∀ key wf, db.workflows.find key = some wf → key = fresh wf.root ∧
    ∃ item ∈ moved ++ rest, item.id = wf.root ∧ (item ∈ rest ∨ item.parent ∉ ids)

section

variable {fresh : String → String} {ids : List String} {moved rest : List PlanItem} {db db' : DB}
  {item : PlanItem}

theorem Held.reparent (h : Held db item) {other : PlanItem} (hstep : reparent ids db other = .ok db')
    (hne : item.id ≠ other.id) (hparent : item.parent ≠ other.id) : Held db' item := by
  by_cases howned : other.parent ∈ ids
  · obtain ⟨w, p, c, hw, hp, hwp, hflow, hc, hcflow, hcp⟩ := h
    obtain ⟨-, -, -, updated, -, -, -, -, -, -, hcontracts, -⟩ := reparent_ok hstep howned
    refine ⟨w, p, c, (reparent_other hstep hne).trans hw, (reparent_other hstep hparent).trans hp, hwp,
      hflow, ?_, hcflow, hcp⟩
    rw [hcontracts, find_insertOrIgnore, hc]
    split <;> rfl
  · unfold AutoAgents.reparent at hstep
    rw [if_pos howned] at hstep
    cases hstep
    exact h

/-- The item that is put under its parent is held, for its parent does not move with it. -/
theorem held_of_reparent (hstep : reparent ids db item = .ok db') (howned : item.parent ∈ ids)
    (hself : item.parent ≠ item.id) : Held db' item := by
  obtain ⟨parent, child, pc, updated, hparent, hchild, -, hflow, hcontract, hworks, hcontracts, -⟩ :=
    reparent_ok hstep howned
  refine ⟨reparented parent updated child, parent, updated, ?_,
    (reparent_other hstep hself).trans hparent, rfl, rfl, ?_, hflow, hcontract⟩
  · rw [hworks, find_modify_self, hchild]
    rfl
  · show db'.contracts.find updated.identity = some updated
    rw [hcontracts, find_insertOrIgnore, if_pos rfl]
    cases hold : db.contracts.find updated.identity with
    | none => rfl
    | some d => rw [Option.getD_some, Contract.identity_injective (find_key hold)]

theorem Ordered.reparent (h : Ordered fresh ids moved (item :: rest) db)
    (hnodup : ((moved ++ item :: rest).map (·.id)).Nodup)
    (hself : item.parent ≠ item.id)
    (hbefore : ∀ a ∈ moved, item.parent ∈ ids → a.parent ≠ item.id)
    (hafter : ∀ b ∈ rest, b.parent ∈ ids → item.parent ≠ b.id)
    (hstep : reparent ids db item = .ok db') : Ordered fresh ids (moved ++ [item]) rest db' := by
  have hmidway := h.midway.reparent hnodup hstep
  have hsplit : moved ++ [item] ++ rest = moved ++ item :: rest := by
    rw [List.append_assoc, List.singleton_append]
  have hne : ∀ x ∈ moved ++ rest, x.id ≠ item.id := by
    rw [List.map_append, List.map_cons] at hnodup
    obtain ⟨-, hright, hdisjoint⟩ := List.nodup_append.mp hnodup
    intro x hx
    rcases List.mem_append.mp hx with hmoved | hrest
    · exact hdisjoint _ (List.mem_map_of_mem hmoved) _ List.mem_cons_self
    · intro heq
      exact (List.nodup_cons.mp hright).1 (heq ▸ List.mem_map_of_mem hrest)
  by_cases howned : item.parent ∈ ids
  · obtain ⟨parent, child, pc, updated, hparent, hchild, -, hflow, -, hworks, -, hworkflows⟩ :=
      reparent_ok hstep howned
    obtain ⟨child', hchild', hchildflow, -, -⟩ := h.midway.roots item
      (List.mem_append_right _ List.mem_cons_self) (Or.inl List.mem_cons_self)
    obtain rfl : child' = child := Option.some.inj (hchild'.symm.trans hchild)
    -- A row that stands in the workflow of `x` did so before, or its new parent does.
    have hstands : ∀ id w, db'.works.find id = some w →
        (id = item.id ∧ w.workflow = parent.workflow) ∨ (id ≠ item.id ∧ db.works.find id = some w) := by
      intro id w hw
      by_cases hid : id = item.id
      · subst hid
        rw [hworks, find_modify_self, hchild] at hw
        cases hw
        exact Or.inl ⟨rfl, rfl⟩
      · exact Or.inr ⟨hid, (reparent_other hstep hid).symm.trans hw⟩
    refine ⟨hmidway, fun x hx hxowned => ?_, fun x hx hxowned id w hw hwflow => ?_, fun key wf hwf => ?_⟩
    · rcases List.mem_append.mp hx with hmoved | hitem
      · exact (h.held x hmoved hxowned).reparent hstep (hne x (List.mem_append_left _ hmoved))
          (hbefore x hmoved howned)
      · obtain rfl := List.mem_singleton.mp hitem
        exact held_of_reparent hstep hxowned hself
    · rcases hstands id w hw with ⟨-, hnew⟩ | ⟨-, hold⟩
      · have hsame := h.alone x (List.mem_cons_of_mem _ hx) hxowned item.parent parent hparent
          (hnew.symm.trans hwflow)
        exact absurd hsame (hafter x hx hxowned)
      · exact h.alone x (List.mem_cons_of_mem _ hx) hxowned id w hold hwflow
    · rw [hworkflows] at hwf
      obtain ⟨hwf, hstays⟩ := find_filter_some hwf
      obtain ⟨hkey, x, hx, hroot, hkind⟩ := h.flows key wf hwf
      refine ⟨hkey, x, hsplit ▸ hx, hroot, ?_⟩
      rcases hkind with hrest | hunowned
      · rcases List.mem_cons.mp hrest with rfl | hrest
        · -- The workflow the item has left is empty, so its row is gone.
          have hid : wf.id = fresh x.id := by
            rw [hroot, ← hkey]
            exact find_key hwf
          rw [hid, hchildflow, bne_self_eq_false, Bool.false_or] at hstays
          obtain ⟨w, hw, hwflow⟩ := List.any_eq_true.mp hstays
          have hwflow : w.workflow = fresh x.id := by simpa using hwflow
          rcases hstands w.id w (find_of_mem hw) with ⟨-, hnew⟩ | ⟨hother, hold⟩
          · have hsame := h.alone x List.mem_cons_self howned x.parent parent hparent
              (hnew.symm.trans hwflow)
            exact absurd hsame hself
          · exact absurd (h.alone x List.mem_cons_self howned w.id w hold hwflow) hother
        · exact Or.inl hrest
      · exact Or.inr hunowned
  · have hsame : db' = db := by
      unfold AutoAgents.reparent at hstep
      rw [if_pos howned] at hstep
      cases hstep
      rfl
    subst hsame
    refine ⟨hmidway, fun x hx hxowned => ?_, fun x hx => h.alone x (List.mem_cons_of_mem _ hx),
      fun key wf hwf => ?_⟩
    · rcases List.mem_append.mp hx with hmoved | hitem
      · exact h.held x hmoved hxowned
      · exact absurd (List.mem_singleton.mp hitem ▸ hxowned) howned
    · obtain ⟨hkey, x, hx, hroot, hkind⟩ := h.flows key wf hwf
      refine ⟨hkey, x, hsplit ▸ hx, hroot, ?_⟩
      rcases hkind with hrest | hunowned
      · rcases List.mem_cons.mp hrest with rfl | hrest
        · exact Or.inr howned
        · exact Or.inl hrest
      · exact Or.inr hunowned

theorem Ordered.reparentAll (h : Ordered fresh ids moved rest db)
    (hnodup : ((moved ++ rest).map (·.id)).Nodup) (hself : ∀ item ∈ rest, item.parent ≠ item.id)
    (horder : (moved ++ rest).Pairwise fun a b => b.parent ∈ ids → a.parent ≠ b.id)
    (hrun : rest.foldlM (AutoAgents.reparent ids) db = .ok db') :
    Ordered fresh ids (moved ++ rest) [] db' := by
  induction rest generalizing moved db with
  | nil =>
      obtain rfl := pure_ok.mp hrun
      rwa [List.append_nil]
  | cons item rest ih =>
      rw [List.foldlM_cons, bind_ok] at hrun
      obtain ⟨mid, hmid, hrest⟩ := hrun
      have hsplit : (moved ++ [item]) ++ rest = moved ++ item :: rest := by
        rw [List.append_assoc, List.singleton_append]
      obtain ⟨-, hlater, hbefore⟩ := List.pairwise_append.mp horder
      have hstep := h.reparent hnodup (hself item List.mem_cons_self)
        (fun a ha => hbefore a ha item List.mem_cons_self) (List.pairwise_cons.mp hlater).1 hmid
      have hall := ih hstep (hsplit ▸ hnodup) (fun x hx => hself x (List.mem_cons_of_mem _ hx))
        (hsplit ▸ horder) hrest
      rwa [hsplit] at hall

end

/-! ### Call totals -/

/-- Every workflow row has a work item. -/
def Inhabited (db : DB) : Prop := ∀ key wf, db.workflows.find key = some wf →
  ∃ id w, db.works.find id = some w ∧ w.workflow = key

theorem Rooted.inhabited {fresh : String → String} {ids : List String} {db : DB} (h : Rooted fresh ids db) :
    Inhabited db := by
  intro key wf hwf
  obtain ⟨hroot, hkey⟩ := h.flows key wf hwf
  obtain ⟨w, hw⟩ := (h.there wf.root).mp hroot
  exact ⟨wf.root, w, hw, hkey ▸ (h.root wf.root w hw).1⟩

section

variable {ids : List String} {db db' : DB} {item : PlanItem}

theorem Inhabited.keeps (h : Inhabited db) (hkeeps : db.KeepsForest db') : Inhabited db' := by
  intro key wf' hwf'
  obtain ⟨wf, hwf, -⟩ := hkeeps.workflow hwf'
  obtain ⟨id, w, hw, hflow⟩ := h key wf hwf
  obtain ⟨w', hw', hplace⟩ := hkeeps.find' hw
  exact ⟨id, w', hw', (congrArg Prod.fst hplace).trans hflow⟩

/-- Only the workflow that the item leaves can become empty, and then its row goes. -/
theorem Inhabited.reparent (h : Inhabited db) (hstep : reparent ids db item = .ok db') : Inhabited db' := by
  by_cases howned : item.parent ∈ ids
  · obtain ⟨parent, child, pc, updated, -, hchild, -, -, -, -, -, hworkflows⟩ := reparent_ok hstep howned
    intro key wf hwf
    rw [hworkflows] at hwf
    obtain ⟨hwf, hstays⟩ := find_filter_some hwf
    have hkey : wf.id = key := find_key hwf
    obtain ⟨id, w, hw, hflow⟩ := h key wf hwf
    by_cases hid : id = item.id
    · subst hid
      obtain rfl : child = w := Option.some.inj (hchild.symm.trans hw)
      rw [hkey, hflow, bne_self_eq_false, Bool.false_or] at hstays
      obtain ⟨w', hw', hflow'⟩ := List.any_eq_true.mp hstays
      exact ⟨w'.id, w', find_of_mem hw', by simpa using hflow'⟩
    · exact ⟨id, w, (reparent_other hstep hid).trans hw, hflow⟩
  · unfold AutoAgents.reparent at hstep
    rw [if_pos howned] at hstep
    cases hstep
    exact h

theorem Inhabited.reparentAll {items : List PlanItem} (h : Inhabited db)
    (hrun : items.foldlM (AutoAgents.reparent ids) db = .ok db') : Inhabited db' :=
  foldlM_keeps Inhabited (fun _ _ _ ha hstep => ha.reparent hstep) h hrun

/-- The last loop gives every workflow the sum over its work items. -/
theorem sumCalls_total (h : Inhabited db) {wf : Workflow} (hwf : wf ∈ (sumCalls db).workflows.rows) :
    wf.calls = (sumCalls db).workflowTotal wf.id := by
  obtain ⟨old, hold, rfl⟩ := List.mem_map.mp hwf
  obtain ⟨id, w, hw, hflow⟩ := h old.id old (find_of_mem hold)
  have hany : db.works.rows.any (·.workflow == old.id) = true :=
    List.any_eq_true.mpr ⟨w, (find_some hw).1, by simpa using hflow⟩
  rw [if_pos hany]
  rfl

end

/-! ### The forest -/

/-- The imported work items form a forest: each is under its legacy parent, in the parent's workflow and
under the parent's contract, every workflow has a root that has no parent, and counts the calls of its
work items. -/
structure Forest (items : List PlanItem) (db : DB) : Prop where
  held : ∀ item ∈ items, item.parent ∈ items.map (·.id) → Held db item
  roots : ∀ wf ∈ db.workflows.rows, ∃ w, db.works.find wf.root = some w ∧ w.parent = none
  totals : ∀ wf ∈ db.workflows.rows, wf.calls = db.workflowTotal wf.id

theorem Held.keeps {db db' : DB} {item : PlanItem} (h : Held db item) (hkeeps : db.KeepsForest db') :
    Held db' item := by
  obtain ⟨w, p, c, hw, hp, hwp, hflow, hc, hcflow, hcp⟩ := h
  obtain ⟨w', hw', hwplace⟩ := hkeeps.find' hw
  obtain ⟨p', hp', hpplace⟩ := hkeeps.find' hp
  simp only [Work.place, Prod.mk.injEq] at hwplace hpplace
  refine ⟨w', p', c, hw', hp', ?_, ?_, ?_, ?_, ?_⟩
  · rw [hwplace.2.1, hwp, find_key hp, find_key hp']
  · rw [hwplace.1, hpplace.1, hflow]
  · rw [hwplace.2.2, hkeeps.contracts, hc]
  · rw [hpplace.1, hcflow]
  · rw [hpplace.2.2, hcp]

theorem Held.of_keeps {db db' : DB} {item : PlanItem} (h : Held db' item) (hkeeps : db.KeepsForest db') :
    ∃ w p, db.works.find item.id = some w ∧ db.works.find item.parent = some p ∧
      w.contract.length = p.contract.length + 1 := by
  obtain ⟨w', p', c, hw', hp', -, -, hc, -, hcp⟩ := h
  obtain ⟨w, hw, hwplace⟩ := hkeeps.find hw'
  obtain ⟨p, hp, hpplace⟩ := hkeeps.find hp'
  simp only [Work.place, Prod.mk.injEq] at hwplace hpplace
  have hidentity : c.identity = w'.contract := find_key hc
  refine ⟨w, p, hw, hp, ?_⟩
  rw [← hwplace.2.2, ← hpplace.2.2, ← hidentity, Contract.identity, List.length_cons, hcp]

/-- An item that comes no later than a parent which is itself put under another keeps a contract that is
too short. -/
theorem too_short {fresh : String → String} {ids : List String} {first rest : List PlanItem} {db db' : DB}
    {a b : PlanItem} (h : Midway fresh ids [] (first ++ a :: rest) db)
    (hnodup : ((first ++ a :: rest).map (·.id)).Nodup)
    (hrun : (first ++ a :: rest).foldlM (reparent ids) db = .ok db') (hb : b ∈ a :: rest)
    (hparent : a.parent = b.id) (ha : a.parent ∈ ids) (hbowned : b.parent ∈ ids) :
    ∃ w p, db'.works.find a.id = some w ∧ db'.works.find a.parent = some p ∧
      w.contract.length ≤ p.contract.length := by
  obtain ⟨early, hearly, hlater⟩ := reparentAll_append hrun
  have hmidway : Midway fresh ids first (a :: rest) early := h.reparentAll hnodup hearly
  have hend : Midway fresh ids (first ++ a :: rest) [] db' := by
    have hall : Midway fresh ids ([] ++ (first ++ a :: rest)) [] db' := by
      refine Midway.reparentAll ?_ ?_ hrun
      · rwa [List.append_nil]
      · rwa [List.append_nil]
    exact hall
  rw [List.foldlM_cons, bind_ok] at hlater
  obtain ⟨mid, hmid, hrest⟩ := hlater
  -- When `a` comes, its parent still has the contract of a root.
  obtain ⟨wb, hwb, -, -, hone⟩ := hmidway.roots b (List.mem_append_right _ hb) (Or.inl hb)
  obtain ⟨w, p, hw, hp, hlength, -⟩ := reparent_length hmid ha
  obtain rfl : wb = p := by
    rw [hparent, hwb] at hp
    exact Option.some.inj hp
  obtain ⟨p', hp', htwo⟩ := hend.owned b (List.mem_append_right _ hb) hbowned
  have hlast : db'.works.find a.id = mid.works.find a.id := by
    refine reparentAll_other hrest fun x hx heq => ?_
    rw [List.map_append, List.map_cons] at hnodup
    exact (List.nodup_cons.mp (List.nodup_append.mp hnodup).2.1).1 (heq ▸ List.mem_map_of_mem hx)
  refine ⟨w, p', hlast.trans hw, hparent ▸ hp', ?_⟩
  omega

theorem Rooted.midway {fresh : String → String} {items : List PlanItem} {db : DB}
    (h : Rooted fresh (items.map (·.id)) db) : Midway fresh (items.map (·.id)) [] items db where
  roots item hitem _ := by
    obtain ⟨w, hw⟩ := (h.there item.id).mp (List.mem_map_of_mem hitem)
    obtain ⟨hflow, hparent, c, hc, hroot⟩ := h.root item.id w hw
    have hidentity : c.identity = w.contract := find_key hc
    refine ⟨w, hw, hflow, hparent, ?_⟩
    rw [← hidentity, Contract.identity, hroot]
    rfl
  owned _ h := absurd h List.not_mem_nil

theorem Rooted.ordered {fresh : String → String} {items : List PlanItem} {db : DB}
    (h : Rooted fresh (items.map (·.id)) db) : Ordered fresh (items.map (·.id)) [] items db where
  midway := h.midway
  held _ h := absurd h List.not_mem_nil
  alone item hitem _ id w hw hflow := by
    have hid : id ∈ items.map (·.id) := (h.there id).mpr ⟨w, hw⟩
    obtain ⟨wf, hwf, hroot⟩ := h.flow id hid
    obtain ⟨wf', hwf', hroot'⟩ := h.flow item.id (List.mem_map_of_mem hitem)
    have hsame : fresh id = fresh item.id := (h.root id w hw).1.symm.trans hflow
    rw [← hsame, hwf] at hwf'
    cases hwf'
    exact hroot.symm.trans hroot'
  flows key wf hwf := by
    obtain ⟨hroot, hkey⟩ := h.flows key wf hwf
    obtain ⟨item, hitem, hid⟩ := List.mem_map.mp hroot
    exact ⟨hkey, item, hitem, hid, Or.inl hitem⟩

/-- What `migrate` runs through. -/
theorem migrate_ok {handoffs : List Handoff} {records : List LegacyRecord} {calls : List LegacyCall}
    {fresh : String → String} {db : DB} (h : migrate handoffs records calls fresh = .ok db) :
    ∃ roots moved counted,
      (planned records).foldlM (importItem handoffs calls fresh) DB.empty = .ok roots ∧
      ((planned records).map (planItem handoffs)).foldlM
        (reparent (((planned records).map (planItem handoffs)).map (·.id))) roots = .ok moved ∧
      importCalls ((planned records).map (·.id)) []
        ((planned records).foldl (markActive handoffs ((planned records).map (·.id))) moved) calls =
          .ok counted ∧
      db = sumCalls counted := by
  unfold migrate at h
  obtain ⟨roots, hroots, h⟩ := bind_ok.mp h
  obtain ⟨moved, hmoved, h⟩ := bind_ok.mp h
  obtain ⟨counted, hcounted, h⟩ := bind_ok.mp h
  have hids : ((planned records).map (planItem handoffs)).map (·.id) = (planned records).map (·.id) := by
    rw [List.map_map]
    rfl
  exact ⟨roots, moved, counted, hroots, hids ▸ hmoved, hcounted, (pure_ok.mp h).symm⟩

/-- **The forest of a migration.** For every set of legacy records that `migrate` accepts, in every order:
the forest is consistent if and only if no item comes before, or is, its own legacy parent while that
parent is put under another. -/
theorem migrate_forest_iff {handoffs : List Handoff} {records : List LegacyRecord} {calls : List LegacyCall}
    {fresh : String → String} {db : DB} (h : migrate handoffs records calls fresh = .ok db) :
    Forest ((planned records).map (planItem handoffs)) db ↔
      ParentsFirst ((planned records).map (planItem handoffs)) := by
  obtain ⟨roots, moved, counted, hroots, hmoved, hcounted, rfl⟩ := migrate_ok h
  have hrooted : Rooted fresh (((planned records).map (planItem handoffs)).map (·.id)) roots := by
    have hall := (Rooted.empty fresh).importAll hroots
    rw [List.nil_append] at hall
    rw [List.map_map]
    exact hall
  have hkeeps : moved.KeepsForest (sumCalls counted) :=
    ((DB.KeepsForest.markAll _ _ _ _).trans (DB.KeepsForest.importCalls hcounted)).trans
      (DB.KeepsForest.sumCalls counted)
  have hinhabited : Inhabited counted := (hrooted.inhabited.reparentAll hmoved).keeps
    ((DB.KeepsForest.markAll _ _ _ _).trans (DB.KeepsForest.importCalls hcounted))
  generalize (planned records).map (planItem handoffs) = items at hrooted hmoved ⊢
  constructor
  · rintro ⟨hheld, -, -⟩
    -- Otherwise the contract of some item is no longer than that of its parent.
    have hshort : ∀ {first rest : List PlanItem} {a b : PlanItem}, items = first ++ a :: rest → b ∈ a :: rest →
        a.parent = b.id → b.parent ∈ items.map (·.id) → False := by
      intro first rest a b hsplit hb hparent hbowned
      have hitem : a ∈ items := hsplit ▸ List.mem_append_right _ List.mem_cons_self
      have hbitem : b ∈ items := hsplit ▸ List.mem_append_right _ hb
      have ha : a.parent ∈ items.map (·.id) := hparent ▸ List.mem_map_of_mem hbitem
      obtain ⟨w, p, hw, hp, hle⟩ := too_short (hsplit ▸ hrooted.midway) (hsplit ▸ hrooted.nodup)
        (hsplit ▸ hmoved) hb hparent (hsplit ▸ ha) (hsplit ▸ hbowned)
      obtain ⟨w', p', hw', hp', hlength⟩ := (hheld a hitem ha).of_keeps hkeeps
      obtain rfl : w = w' := Option.some.inj (hw.symm.trans hw')
      obtain rfl : p = p' := Option.some.inj (hp.symm.trans hp')
      omega
    constructor
    · intro item hitem hself
      obtain ⟨first, rest, hsplit⟩ := List.append_of_mem hitem
      exact hshort hsplit List.mem_cons_self hself (hself ▸ List.mem_map_of_mem hitem)
    · have hfrom : ∀ rest first, items = first ++ rest →
          rest.Pairwise fun a b => b.parent ∈ items.map (·.id) → a.parent ≠ b.id := by
        intro rest
        induction rest with
        | nil => exact fun _ _ => List.Pairwise.nil
        | cons a rest ih =>
            intro first hsplit
            have hnext : items = (first ++ [a]) ++ rest := by
              rw [hsplit, List.append_assoc, List.singleton_append]
            exact List.pairwise_cons.mpr ⟨fun b hb hbowned hparent =>
              hshort hsplit (List.mem_cons_of_mem a hb) hparent hbowned, ih _ hnext⟩
      exact hfrom items [] rfl
  · rintro ⟨hself, horder⟩
    have hordered : Ordered fresh (items.map (·.id)) items [] moved := by
      have hall : Ordered fresh (items.map (·.id)) ([] ++ items) [] moved :=
        hrooted.ordered.reparentAll hrooted.nodup hself horder hmoved
      exact hall
    refine ⟨fun item hitem howned => (hordered.held item hitem howned).keeps hkeeps, fun wf hwf => ?_,
      fun wf hwf => sumCalls_total hinhabited hwf⟩
    obtain ⟨old, hold, hroot⟩ := hkeeps.workflow (find_of_mem hwf)
    obtain ⟨-, item, hitem, hid, hkind⟩ := hordered.flows _ old hold
    obtain ⟨w, hw, -, hparent, -⟩ := hordered.midway.roots item hitem hkind
    obtain ⟨w', hw', hplace⟩ := hkeeps.find' hw
    refine ⟨w', ?_, (congrArg (fun place => place.2.1) hplace).trans hparent⟩
    rw [hroot, ← hid]
    exact hw'

/-! ### A chain of three records -/

/-- A session that a handoff of its parent has started. -/
def session (id : String) (handoff : Option String) : LegacyRecord where
  id
  mode := .fix
  goal := "repair"
  parentHandoff := handoff
  checkout := false
  workspace := .error ⟨"git", "no checkout", .environment⟩

/-- The handoffs from `root` to `middle`, and from `middle` to `leaf`. -/
def chainHandoffs : List Handoff :=
  [{ identity := "h1", target := "fix", parent := "root", child := some "middle" },
    { identity := "h2", target := "fix", parent := "middle", child := some "leaf" }]

/-- Parents before their children: the forest is consistent. -/
theorem migrate_forest_chain : ∃ db,
    migrate chainHandoffs [session "root" none, session "middle" (some "h1"), session "leaf" (some "h2")] []
      ("wf-" ++ ·) = .ok db ∧
    Forest ((planned [session "root" none, session "middle" (some "h1"), session "leaf" (some "h2")]).map
      (planItem chainHandoffs)) db := by
  have hmigrate : migrate chainHandoffs
      [session "root" none, session "middle" (some "h1"), session "leaf" (some "h2")] [] ("wf-" ++ ·) =
        .ok _ := rfl
  exact ⟨_, hmigrate, (migrate_forest_iff hmigrate).mpr (by decide)⟩

/-- The leaf is enumerated before its parent: it keeps the contract and the workflow its parent had. -/
theorem migrate_forest_broken : ∃ db leaf middle,
    migrate chainHandoffs [session "leaf" (some "h2"), session "middle" (some "h1"), session "root" none] []
      ("wf-" ++ ·) = .ok db ∧
    db.works.find "leaf" = some leaf ∧ db.works.find "middle" = some middle ∧
    leaf.parent = some "middle" ∧ leaf.workflow = "wf-middle" ∧ middle.workflow = "wf-root" ∧
    ¬ Forest ((planned [session "leaf" (some "h2"), session "middle" (some "h1"), session "root" none]).map
      (planItem chainHandoffs)) db := by
  have hmigrate : migrate chainHandoffs
      [session "leaf" (some "h2"), session "middle" (some "h1"), session "root" none] [] ("wf-" ++ ·) =
        .ok _ := rfl
  refine ⟨_, _, _, hmigrate, rfl, rfl, rfl, rfl, rfl, fun hforest => ?_⟩
  obtain ⟨w, p, c, hw, hp, -, hflow, -⟩ := hforest.held
    (planItem chainHandoffs (session "leaf" (some "h2"))) List.mem_cons_self (by decide)
  cases hw
  cases hp
  exact absurd hflow (by decide)

end AutoAgents
