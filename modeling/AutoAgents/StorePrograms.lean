import AutoAgents.BaseProgram
import AutoAgents.StoreRows

/-! Programs over the store. A law of the rows says what holds of every work item and how the row may
stand to an earlier one; it has to be checked only for the row a call writes from the record it was
given, and for the rows it adds. -/

namespace AutoAgents

open Base Base.Table
open Git (Path Commit)

/-- What a caller does with the store, one transaction at a time. -/
abbrev Program (α : Type) := Prog DB Call ControlError α

namespace Program

/-- One transaction. -/
def one (call : Call) : Program Unit := .send call (.pure ())

/-- `self.work(identity)`. -/
def work (identity : String) : Program Work := .read fun db => .ofExcept (db.work identity)

/-- `transition`, which answers with the record as it then is. -/
def transition (w : Work) (status : Status) (changes : Changes) (operation : Option OperationId)
    (operations : List OperationId) : Program Work :=
  .send (.transition w status changes operation operations) (work w.id)

end Program

/-! ### Laws of the rows -/

/-- What holds of every work row, and how a row stands to an earlier one. Charged calls do not matter. -/
structure RowLaw where
  row : Work → Prop
  later : Work → Work → Prop
  refl : ∀ w, later w w
  trans : ∀ {a b c}, later a b → later b c → later a c
  charge : ∀ w n, row w → row { w with calls := n }
  charge_later : ∀ w n, later w { w with calls := n }
  charge_earlier : ∀ w n, later { w with calls := n } w

namespace RowLaw

variable (R : RowLaw)

/-- A record that was read: its row is still there, at some later moment. -/
def Reads (db : DB) (w : Work) : Prop :=
  R.row w ∧ ∃ row, db.works.find w.id = some row ∧ Work.Later w row ∧ R.later w row

def law : Law DB where
  holds db := ∀ w ∈ db.works.rows, R.row w
  since db db' := ∀ id w, db.works.find id = some w →
    ∃ w', db'.works.find id = some w' ∧ Work.Later w w' ∧ R.later w w'
  refl _ _ w h := ⟨w, h, Work.Later.refl w, R.refl w⟩
  trans h h' id w hw := by
    obtain ⟨w', hw', hlater, hrow⟩ := h id w hw
    obtain ⟨w'', hw'', hlater', hrow'⟩ := h' id w' hw'
    exact ⟨w'', hw'', hlater.trans hlater', R.trans hrow hrow'⟩

variable {R} {db db' : DB} {w : Work} {call : Call}

theorem Reads.later (h : R.Reads db w) (hs : R.law.since db db') : R.Reads db' w := by
  obtain ⟨hrow, row, hfind, hlater, hrel⟩ := h
  obtain ⟨row', hfind', hlater', hrel'⟩ := hs _ _ hfind
  exact ⟨hrow, row', hfind', hlater.trans hlater', R.trans hrel hrel'⟩

theorem reads_of_find (h : R.law.holds db) {id : String} (hw : db.works.find id = some w) :
    R.Reads db w := by
  have hid : w.id = id := find_key hw
  refine ⟨h w (find_some hw).1, w, ?_, Work.Later.refl w, R.refl w⟩
  rw [hid]
  exact hw

/-- Rows that each move within the law, and new rows that keep it. -/
theorem kept_of_rows {N : Work → Prop} {W : Work → Work → Prop} (hrows : DB.Rows N W db db')
    (hadvanced : DB.Advanced db db')
    (hmove : ∀ w w', w ∈ db.works.rows → W w w' → R.row w' ∧ R.later w w')
    (hnew : ∀ w, N w → db.works.find w.id = none → R.row w) : R.law.holds db' ∧ R.law.since db db' := by
  refine ⟨fun w' hw' => ?_, fun id w hw => ?_⟩
  · rcases Grown.mem hrows hw' with ⟨w, hw, -, hmoved⟩ | ⟨hadded, hfree⟩
    · exact (hmove w w' hw hmoved).1
    · exact hnew w' hadded hfree
  · obtain ⟨w', hw', hmoved⟩ := Grown.find hrows hw
    obtain ⟨w'', hw'', hlater⟩ := hadvanced.works id w hw
    obtain rfl := Option.some.inj (hw'.symm.trans hw'')
    exact ⟨w', hw', hlater, (hmove w w' (find_some hw).1 hmoved).2⟩

/-- A call keeps the law when the row it writes does, and the rows it adds do. -/
theorem allows (hrecords : ∀ w ∈ call.records, R.Reads db w)
    (hwrites : ∀ w ∈ call.records, R.row w → call.Admits w → ∀ db' db'', call.exec db' = .ok db'' →
      R.row (call.rewritten w) ∧ R.later w (call.rewritten w))
    (hadds : ∀ db' w, R.law.since db db' → R.law.holds db' → call.Adds db' w →
      db'.works.find w.id = none → R.row w) :
    R.law.Allows (fun call db => call.exec db) db call := by
  intro s hs hholds t hexec
  have hread : ∀ w ∈ call.records, R.Reads s w := fun w hw => (hrecords w hw).later hs
  have hrows := Call.exec_rows (fun w hw => (hread w hw).2.imp fun _ h => h.1) hexec
  refine kept_of_rows hrows (Call.exec_advanced hexec) ?_ fun w => hadds s w hs hholds
  intro w w' hw hmoved
  rcases Call.writes_cases hmoved with rfl | ⟨n, rfl⟩ | ⟨record, hrecord, hid, hrev, hadmits, rfl⟩
  · exact ⟨hholds _ hw, R.refl _⟩
  · exact ⟨R.charge w n (hholds w hw), R.charge_later w n⟩
  · obtain ⟨hrow, row, hfind, hlater, -⟩ := hread record hrecord
    obtain rfl : row = w := by
      rw [← hid] at hfind
      exact Option.some.inj (hfind.symm.trans (find_of_mem hw))
    have hsame := hlater.current hrev
    rw [hsame] at hadmits ⊢
    rw [Call.rewritten_calls]
    obtain ⟨hkept, hrel⟩ := hwrites record hrecord hrow (Call.admits_calls hadmits) s t hexec
    refine ⟨R.charge _ _ hkept, R.trans (R.charge_earlier record row.calls) ?_⟩
    exact R.trans hrel (R.charge_later _ _)

/-- The calls on operations keep every law of the rows. -/
theorem allows_ledger (h : call.onLedger = true) :
    R.law.Allows (fun call db => call.exec db) db call := by
  intro s _ hholds t hexec
  refine kept_of_rows (Call.ledger_rows h hexec) (Call.exec_advanced hexec) ?_ fun _ hnone => hnone.elim
  rintro w w' hw (rfl | ⟨n, rfl⟩)
  · exact ⟨hholds _ hw, R.refl _⟩
  · exact ⟨R.charge w n (hholds w hw), R.charge_later w n⟩

/-! ### Rules for programs -/

open Program

/-- The calls that keep the law of the rows. -/
abbrev guard (R : RowLaw) : Guard (fun (call : Call) (db : DB) => call.exec db) R.law := R.law.guard _

/-- A program whose calls keep the law of the rows, under any interleaving. -/
abbrev Safe (R : RowLaw) {α : Type} (db : DB) (p : Program α) (Q : DB → α → Prop) : Prop :=
  p.Safe R.guard db Q

/-- The law allows a call. -/
abbrev Allows (R : RowLaw) (db : DB) (call : Call) : Prop :=
  R.law.Allows (fun call db => call.exec db) db call

theorem safe_one {Q : DB → Unit → Prop} (h : R.Allows db call)
    (hQ : ∀ db' db'', R.law.since db db' → R.law.holds db' → call.exec db' = .ok db'' → Q db'' ()) :
    R.Safe db (one call) Q :=
  ⟨h, hQ⟩

theorem safe_last (h : R.Allows db call) : R.Safe db (one call) fun _ _ => True :=
  safe_one h fun _ _ _ _ _ => trivial

/-- A record that is read again: the row at that moment. -/
theorem safe_work {w₀ : Work} (h : R.Reads db w₀) :
    R.Safe db (work w₀.id) fun db' w => R.law.since db db' ∧ R.Reads db' w ∧ w.id = w₀.id ∧
      Work.Later w₀ w ∧ R.later w₀ w := by
  intro s hs hholds
  obtain ⟨-, row, hfind, hlater, hrel⟩ := h.later hs
  have hread := reads_of_find hholds hfind
  simp only [DB.work, hfind, Prog.ofExcept]
  exact ⟨hs, hread, find_key hfind, hlater, hrel⟩

/-- A record of which nothing is known but that it is read. -/
theorem safe_work_any (id : String) :
    R.Safe db (work id) fun db' w => R.law.since db db' ∧ R.Reads db' w ∧ w.id = id := by
  intro s hs hholds
  cases hfind : s.works.find id with
  | none =>
      simp only [DB.work, hfind, Prog.ofExcept]
      trivial
  | some row =>
      simp only [DB.work, hfind, Prog.ofExcept]
      exact ⟨hs, reads_of_find hholds hfind, find_key hfind⟩

theorem allows_transition {status : Status} {changes : Changes} {operation : Option OperationId}
    {operations : List OperationId} (hw : R.Reads db w)
    (h : R.row w → (status = w.status ∨ status ∈ w.status.transitions) →
      R.row (DB.changed status changes w) ∧ R.later w (DB.changed status changes w)) :
    R.Allows db (.transition w status changes operation operations) := by
  refine allows ?_ ?_ ?_
  · intro record hrecord
    obtain rfl := List.mem_singleton.mp hrecord
    exact hw
  · intro record hrecord hrow hadmits _ _ _
    obtain rfl := List.mem_singleton.mp hrecord
    exact h hrow hadmits
  · exact fun _ _ _ _ hadds _ => nomatch hadds

/-- `transition` answers with a record of the row it has written. -/
theorem safe_transition {status : Status} {changes : Changes} {operation : Option OperationId}
    {operations : List OperationId} (hw : R.Reads db w)
    (h : R.row w → (status = w.status ∨ status ∈ w.status.transitions) →
      R.row (DB.changed status changes w) ∧ R.later w (DB.changed status changes w)) :
    R.Safe db (transition w status changes operation operations) fun db' a =>
      R.law.since db db' ∧ R.Reads db' a ∧ a.id = w.id ∧
        Work.Later (DB.changed status changes w) a ∧ R.later (DB.changed status changes w) a := by
  have hallows : R.Allows db (.transition w status changes operation operations) := allows_transition hw h
  refine ⟨hallows, fun s t hs hholds hexec => ?_⟩
  have hkept := hallows s hs hholds t hexec
  obtain ⟨hrow, row, hfind, hlater, -⟩ := hw.later hs
  obtain ⟨mid, hmove, hconsume⟩ := bind_ok.mp hexec
  obtain ⟨current, hcurrent, hrev, hallowed, -, rfl⟩ := DB.transitionRow_ok hmove
  obtain rfl := Option.some.inj (hfind.symm.trans hcurrent)
  have hsame := hlater.current hrev
  have hwritten : t.works.find w.id = some (DB.changed status changes row) := by
    rw [DB.consumeAll_works hconsume]
    have hself := find_modify_self s.works w.id (DB.changed status changes) (DB.changed_id status changes)
    rw [hcurrent] at hself
    exact hself
  -- The written row is the one the record describes, but for calls charged since.
  have hcalls : DB.changed status changes row =
      { DB.changed status changes w with calls := row.calls } := by
    rw [hsame]
    rfl
  have hallowed' : status = w.status ∨ status ∈ w.status.transitions := by
    rw [hsame] at hallowed
    exact hallowed
  have hchanged : R.Reads t (DB.changed status changes w) := by
    refine ⟨(h hrow hallowed').1, _, hwritten, ?_, ?_⟩
    · rw [hcalls]
      exact ⟨rfl, rfl, rfl, rfl, rfl, hlater.calls, Or.inl rfl⟩
    · rw [hcalls]
      exact R.charge_later _ _
  refine (safe_work hchanged).mono fun u a htu hpost => ?_
  exact ⟨R.law.trans hs (R.law.trans hkept.2 hpost.1), hpost.2⟩

/-- A new child is read back as it was added, at some later moment. -/
theorem safe_child {parent : Work} {id goal : String} {mode : Mode} {source : Commit} {inputs : Inputs}
    {scope : List Path} {checks : List VerificationSpec} {limit : Nat} {operation : Option OperationId}
    (hparent : R.Reads db parent)
    (h : R.Allows db (.child parent id mode goal source inputs scope checks limit operation)) :
    R.Safe db (one (.child parent id mode goal source inputs scope checks limit operation)) fun db' _ =>
      ∃ (pc c : Contract) (before : DB), Contract.build parent.workflow id mode goal source pc.authorization scope checks inputs
          pc.identity = .ok c ∧ R.law.since db before ∧ before.works.find id = none ∧
        R.law.since before db' ∧ R.Reads db' (DB.newWork c (some parent.id) (DB.childPhase mode) limit) := by
  refine safe_one h fun s t hs hholds hexec => ?_
  have hkept := h s hs hholds t hexec
  obtain ⟨pc, c, -, hbuild, hfree, -, -, hfind⟩ :=
    DB.child_found ((hparent.later hs).2.imp fun _ hrow => hrow.1) hexec
  exact ⟨pc, c, s, hbuild, hs, hfree, hkept.2, reads_of_find hkept.1 hfind⟩

/-- A new root is read back as it was added, at some later moment. -/
theorem safe_root {workflow id goal : String} {mode : Mode} {source : Commit}
    {authorization : Authorization} {inputs : Inputs} {scope : List Path}
    {checks : List VerificationSpec} {maxCalls : Option Nat} {nodeLimit : Nat}
    (h : ∀ c, Contract.build workflow id mode goal source authorization scope checks inputs [] = .ok c →
      R.row (DB.newWork c none (DB.rootPhase mode) nodeLimit)) :
    R.Safe db (one (.createWorkflow workflow id mode goal source authorization inputs scope checks maxCalls
        nodeLimit)) fun db' _ =>
      ∃ (c : Contract) (before : DB),
        Contract.build workflow id mode goal source authorization scope checks inputs [] = .ok c ∧
          R.law.since db before ∧ before.works.find id = none ∧ R.law.since before db' ∧
          R.Reads db' (DB.newWork c none (DB.rootPhase mode) nodeLimit) := by
  have hallows : R.Allows db (.createWorkflow workflow id mode goal source authorization inputs scope
      checks maxCalls nodeLimit) := by
    refine allows (fun _ hw => absurd hw List.not_mem_nil) (fun _ hw => absurd hw List.not_mem_nil) ?_
    rintro s w - - ⟨c, hbuild, rfl⟩ -
    exact h c hbuild
  refine safe_one hallows fun s t hs hholds hexec => ?_
  have hkept := hallows s hs hholds t hexec
  have hcall := hexec
  simp only [Call.exec, DB.createWorkflow, guard_ok, bind_ok] at hcall
  obtain ⟨-, c, hbuild, hcall⟩ := hcall
  split at hcall
  · cases hcall
  · obtain ⟨-, hfresh, rfl⟩ := DB.insertWork_ok hcall
    have hnew : (DB.newWork c none (DB.rootPhase mode) nodeLimit).id = id := (Contract.build_eq_ok hbuild).2.1
    have hfind := find_insert_self s.works _ hfresh
    refine ⟨c, s, hbuild, hs, ?_, hkept.2, reads_of_find hkept.1 hfind⟩
    rw [← hnew]
    exact hfresh

end RowLaw
end AutoAgents
