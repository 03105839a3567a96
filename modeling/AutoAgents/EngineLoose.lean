import AutoAgents.EngineLaws

/-! Laws that ask nothing of a single row, only how a row may move. A law is loose when it restricts no
work item that is new, and allows what `resume` and a diagnosis do to work items they find; the engine
then keeps it once it steps only work items the law leaves free. -/

namespace AutoAgents

open Base Program
open Git (Path Commit)

namespace RowLaw

/-- The law allows every transition of the work item. -/
def Free (R : RowLaw) (id : String) : Prop := ∀ w : Work, w.id = id → ∀ status changes, R.Keeps w status changes

/-- What a law asks of no work item that the engine finds or adds. -/
structure Loose (R : RowLaw) (base : DB) : Prop where
  row : ∀ w, R.row w
  fresh : ∀ before id, R.law.since base before → before.works.find id = none → R.Free id
  resumes : ∀ w status changes, Resumes w status changes → R.Keeps w status changes

variable {R : RowLaw} {base db : DB} {cfg : Config} {o : Observed} {w : Work} {c : Contract}
  {p : Program Unit}

namespace Loose

theorem newRoots (h : R.Loose base) : R.NewRoots base fun w => R.Free w.id where
  row _ _ _ := h.row _
  fresh w before _ hsince hnone := h.fresh before w.id hsince hnone
  verify w hfree := hfree w rfl _ _
  ready w hfree := hfree w rfl _ _

theorem safe_advance (hw : R.Reads db w) (hfree : R.Free w.id) (phase : Phase) (context : Context)
    (operation : Option OperationId) : R.Safe db (advance w phase context operation) fun _ _ => True :=
  safe_move hw (hfree w rfl _ _)

theorem safe_done (h : R.Loose base) (hw : R.Reads db w) (hfree : R.Free w.id)
    (hbase : R.law.since base db) {result : WorkResult} {operation : Option OperationId}
    {deferred : Option Deferred} : R.Safe db (complete w result operation deferred) fun _ _ => True :=
  safe_complete hw hbase h.newRoots (fun _ => hfree w rfl _ _) fun updated hid _ => hfree updated hid _ _

theorem allows_child (h : R.Loose base) (hw : R.Reads db w) (hfree : R.Free w.id) {id goal : String}
    {mode : Mode} {source : Commit} {inputs : Inputs} {scope : List Path} {checks : List VerificationSpec}
    {limit : Nat} {operation : Option OperationId} :
    R.Allows db (.child w id mode goal source inputs scope checks limit operation) := by
  refine allows ?_ ?_ fun _ _ _ _ _ _ => h.row _
  · intro record hrecord
    obtain rfl := List.mem_singleton.mp hrecord
    exact hw
  · intro record hrecord hrow hadmits _ _ _
    obtain rfl := List.mem_singleton.mp hrecord
    exact hfree record rfl _ _ hrow hadmits

theorem allows_batch (h : R.Loose base) (hw : R.Reads db w) (hfree : R.Free w.id)
    {tasks : List (String × Task)} {source : Commit} : R.Allows db (.batch w tasks source) := by
  refine allows ?_ ?_ fun _ _ _ _ _ _ => h.row _
  · intro record hrecord
    obtain rfl := List.mem_singleton.mp hrecord
    exact hw
  · intro record hrecord hrow hadmits _ _ _
    obtain rfl := List.mem_singleton.mp hrecord
    exact hfree record rfl _ _ hrow hadmits

/-- A new child, moved on. -/
theorem safe_childOn (h : R.Loose base) (hw : R.Reads db w) (hfree : R.Free w.id)
    (hbase : R.law.since base db) {id goal : String} {mode : Mode} {source : Commit} {inputs : Inputs}
    {scope : List Path} {checks : List VerificationSpec} {limit : Nat} {operation : Option OperationId}
    {changes : Changes} :
    R.Safe db (do
      one (.child w id mode goal source inputs scope checks limit operation)
      promote id changes) fun _ _ => True := by
  refine Prog.Safe.bind ((safe_child hw (h.allows_child hw hfree)).mono ?_)
  rintro s - - ⟨pc, built, before, hbuild, hbefore, hnone, -, hread⟩
  have hid : (DB.newWork built (some w.id) (DB.childPhase mode) limit).id = id := (Contract.build_eq_ok hbuild).2.1
  have hnew := h.fresh before id (R.law.trans hbase hbefore) hnone
  have hkeeps : ∀ row, Work.Later (DB.newWork built (some w.id) (DB.childPhase mode) limit) row →
      ∀ status changes, R.Keeps row status changes :=
    fun row hlater => hnew row (hlater.id.trans hid)
  rw [← hid]
  exact safe_promote hread (fun row hlater _ => hkeeps row hlater _ _) fun row hlater => hkeeps row hlater _ _

variable (hbinds : ∀ identity phase context, R.later w (DB.bound identity (some phase) context w))
include hbinds

theorem allows_bind (h : R.Loose base) (hw : R.Reads db w) {bound : Contract} {next : Phase}
    {context : Context} {operation : Option OperationId} :
    R.Allows db (.bindContract w bound (some next) (some context) operation) := by
  refine allows ?_ ?_ fun _ _ _ _ _ _ => h.row _
  · intro record hrecord
    obtain rfl := List.mem_singleton.mp hrecord
    exact hw
  · intro record hrecord _ _ _ _ _
    obtain rfl := List.mem_singleton.mp hrecord
    exact ⟨h.row _, hbinds _ _ _⟩

/-- A step of a free work item keeps a loose law. -/
theorem step_safe (h : R.Loose base) (hw : R.Reads db w) (hfree : R.Free w.id)
    (hbase : R.law.since base db) (hholds : R.law.holds db)
    (hstep : w.step cfg o db c = .ok p) : R.Safe db p fun _ _ => True := by
  have hmoves : ∀ {status phase context p}, Moves w status phase context p →
      R.Safe db p fun _ _ => True := by
    rintro status phase context _ ⟨failure, operation, rfl⟩
    exact safe_move hw (hfree w rfl _ _)
  cases step_ok hstep with
  | document _ hend =>
      cases hend with
      | moved hmoved => exact hmoves hmoved
      | planned => exact safe_last (h.allows_bind hbinds hw)
      | variant => exact h.safe_done hw hfree hbase
  | classify _ hend =>
      cases hend with
      | asks => exact safe_move hw (hfree w rfl _ _)
      | notBug | goesOn => exact safe_advance hw hfree _ _ _
      | iteration => exact safe_last (h.allows_child hw hfree)
      | binds => exact safe_last (h.allows_bind hbinds hw)
  | schedule _ _ hend =>
      cases hend with
      | done => exact safe_advance hw hfree _ _ _
      | limited => exact safe_move hw (hfree w rfl _ _)
      | batch => exact safe_last (h.allows_batch hw hfree)
      | starts _ _ hstart =>
          obtain ⟨checks, -, rfl⟩ := startTask_ok hstart
          exact h.safe_childOn hw hfree hbase
  | implement _ _ hend =>
      obtain ⟨proposal, candidate, manifest, -, rfl⟩ := stepImplement_ok hend
      exact safe_advance hw hfree _ _ _
  | persistence _ hend =>
      rcases stepPersistence_ok hend with rfl | ⟨manifest, rfl⟩
      · exact safe_advance hw hfree _ _ _
      · exact safe_move hw (hfree w rfl _ _)
  | verify _ hend =>
      obtain ⟨report, -, ⟨phase, -, rfl⟩ | ⟨-, rfl⟩⟩ := stepVerify_ok hend
      · exact safe_advance hw hfree _ _ _
      · exact h.safe_done hw hfree hbase
  | finalize _ hend =>
      obtain ⟨report, candidate, -, -, -, -, rfl⟩ := stepFinalize_ok hend
      exact safe_advance hw hfree _ _ _
  | review _ hend =>
      cases hend with
      | finalizes | judged | accepted | reviewed => exact safe_advance hw hfree _ _ _
      | notBug => exact h.safe_done hw hfree hbase
  | artifactVerify _ hend => cases hend <;> exact safe_advance hw hfree _ _ _
  | diagnose _ hend =>
      cases hend with
      | asks => exact safe_move hw (hfree w rfl _ _)
      | @resumes id child hfind hblocked hcategory =>
          have hread := reads_of_find hholds hfind
          have hkeeps := h.resumes child _ _ (.retried (Or.inl hblocked) (retried_of_category hcategory))
          refine Prog.Safe.bind ((safe_move hread hkeeps).mono fun s _ hs _ => ?_)
          exact safe_move (hw.later hs) (hfree w rfl _ _)
      | fixes =>
          split
          · exact h.safe_childOn hw hfree hbase
          · exact Prog.Safe.bind ((safe_last (h.allows_child hw hfree)).mono fun _ _ _ _ => trivial)
      | runs => exact safe_last (h.allows_child hw hfree)
      | accepts => exact safe_advance hw hfree _ _ _
  | acceptance _ hend =>
      obtain ⟨proposal, report, -, rfl⟩ := stepAcceptance_ok hend
      refine Prog.Safe.bind ((safe_last (allows_ledger rfl)).mono fun s _ hs _ => ?_)
      exact safe_advance (hw.later hs) hfree _ _ _
  | deliver _ hend =>
      cases hend with
      | asks => exact safe_move hw (hfree w rfl _ _)
      | attested | handed | delivered => exact h.safe_done hw hfree hbase

end Loose

/-! ### Errors and children -/

theorem safe_consumeAll (ops : List Operation) :
    R.Safe db (ops.forM fun op => one (.consume op.id)) fun _ _ => True :=
  Prog.safe_forM (P := fun _ => True) trivial fun _ _ _ _ _ => safe_last (allows_ledger rfl)

/-- The answer to an error of a free work item. -/
theorem free_onError {provider : Option String} {allowed : Bool} {e : ControlError} (hw : R.Reads db w)
    (hfree : R.Free w.id) : R.Safe db (onError cfg provider allowed db w e) fun _ _ => True := by
  unfold onError
  simp only
  split
  · refine Prog.Safe.bind ((safe_consumeAll _).mono fun s _ hs _ => ?_)
    exact safe_move (hw.later hs) (hfree w rfl _ _)
  · split
    · refine Prog.Safe.bind ((safe_consumeAll _).mono fun s _ hs _ => ?_)
      exact safe_move (hw.later hs) (hfree w rfl _ _)
    · split <;> exact safe_move hw (hfree w rfl _ _)

theorem free_childDone {candidate : Except ControlError Candidate} {child : Work} (hw : R.Reads db w)
    (hfree : R.Free w.id) : R.Safe db (childDone candidate w child) fun _ _ => True := by
  unfold childDone
  split
  · refine Prog.Safe.bind (Prog.safe_ofExcept fun candidate _ => ?_)
    refine Prog.Safe.bind (Prog.safe_ofExcept fun done _ => ?_)
    exact safe_move hw (hfree w rfl _ _)
  · exact safe_move hw (hfree w rfl _ _)
  · trivial

theorem free_childrenDone {candidate : Except ControlError Candidate} {children : List Work}
    (hw : R.Reads db w) (hfree : R.Free w.id) :
    R.Safe db (childrenDone candidate w children) fun _ _ => True := by
  unfold childrenDone
  split
  · refine Prog.Safe.bind (Prog.safe_ofExcept fun tasks _ => ?_)
    refine Prog.Safe.bind (Prog.safe_ofExcept fun candidate _ => ?_)
    exact safe_move hw (hfree w rfl _ _)
  · split
    · exact safe_move hw (hfree w rfl _ _)
    · trivial

end RowLaw

/-! ### Moves -/

/-- The moves of `resume` and `drive`, with what they do to operations. -/
def Move.drives : Move → Bool
  | .resume .. | .run .. | .step .. | .handle .. | .child .. | .children .. | .ledger .. | .fault .. => true
  | _ => false

namespace RowLaw.Loose

variable {R : RowLaw} {base db : DB} {cfg : Config}

/-- A thread under a loose law: the work item it steps is free, and its program is safe. -/
def Tame (R : RowLaw) (db : DB) (thread : EngineThread) : Prop :=
  Pool.Tame R.guard (fun _ tag => ∀ w ∈ tag, R.Free w.id) db thread

theorem onWork_safe (h : R.Loose base) (hholds : R.law.holds db) (hbase : R.law.since base db)
    (hlive : ∀ w ∈ db.works.rows, w.status ≠ .blocked → w.status.terminal = false → R.Free w.id)
    (hbinds : ∀ w : Work, w.status = .running → R.Free w.id → ∀ identity phase context,
      R.later w (DB.bound identity (some phase) context w))
    {move : Move} (hmove : move.drives = true ∨ ∀ id, R.Free id) {id : String} {w : Work}
    (hfind : db.works.find id = some w) (hsubject : move.subject = some id) :
    Tame R db ⟨if move.steps = true ∧ w.status = .running then some w else none, move.onWork cfg db w⟩ := by
  have hw := reads_of_find hholds hfind
  have hmem := (Table.find_some hfind).1
  have hopen : ∀ status, w.status = status → status ≠ .blocked → status.terminal = false → R.Free w.id := by
    rintro status rfl hblocked hterminal
    exact hlive w hmem hblocked hterminal
  have hany : move.drives = false → ∀ id, R.Free id := by
    intro hdrives
    rcases hmove with htrue | hall
    · rw [hdrives] at htrue
      cases htrue
    · exact hall
  have hrows : ∀ {s}, R.law.holds s → (∀ id, R.Free id) → ∀ (nodes : List Work) status failure,
      (∀ node ∈ nodes, node ∈ s.works.rows) →
      R.Safe s (nodes.forM fun node => one (.transition node status { failure } none []))
        fun _ _ => True := by
    intro s hs hall nodes status failure hnodes
    refine Prog.safe_forM (P := fun _ => True) trivial fun node hnode t hst _ => ?_
    have hread := reads_of_find hs (Table.find_of_mem (hnodes node hnode))
    exact safe_move (hread.later hst) (hall node.id node rfl _ _)
  refine ⟨?_, ?_⟩
  · intro v hv
    by_cases hstepped : move.steps = true ∧ w.status = .running
    · rw [if_pos hstepped] at hv
      obtain rfl := Option.some.inj hv
      exact hopen .running hstepped.2 (by decide) rfl
    · rw [if_neg hstepped] at hv
      cases hv
  cases move with
  | run _ =>
      simp only [Move.onWork]
      split
      · next hready => exact safe_move hw (hopen .ready hready (by decide) rfl w rfl _ _)
      · trivial
  | step _ o =>
      simp only [Move.onWork]
      split
      · next hrun =>
          have hfree := hopen .running hrun (by decide) rfl
          split
          · trivial
          · next c hcontract =>
              split
              · trivial
              · next program hstep =>
                  exact h.step_safe (hbinds w hrun hfree) hw hfree hbase hholds hstep
      · trivial
  | child _ candidate =>
      simp only [Move.onWork]
      split
      · next hwaiting _ _ => exact free_childDone hw (hopen .waiting hwaiting (by decide) rfl)
      · trivial
  | children _ candidate =>
      simp only [Move.onWork]
      split
      · next hwaiting => exact free_childrenDone hw (hopen .waiting hwaiting.1 (by decide) rfl)
      · trivial
  | approve _ hashes chosen =>
      simp only [Move.onWork, approve]
      split
      · trivial
      · split
        · trivial
        · exact safe_move hw (hany rfl w.id w rfl _ _)
  | answer _ rejected pending =>
      simp only [Move.onWork, answer]
      split
      · trivial
      · exact safe_move hw (hany rfl w.id w rfl _ _)
  | generate _ id goal variant source scope =>
      simp only [Move.onWork, generate]
      split
      · trivial
      · refine safe_last (allows ?_ (fun _ _ _ hadmits => absurd hadmits fun h => h) fun _ _ _ _ _ _ => h.row _)
        intro record hrecord
        obtain rfl := List.mem_singleton.mp hrecord
        exact hw
  | present _ candidate =>
      simp only [Move.onWork]
      split
      · exact safe_move hw (hany rfl w.id w rfl _ _)
      · trivial
  | cancel _ =>
      refine Prog.Safe.bind fun u _ hu => ?_
      exact hrows hu (hany rfl) _ _ _ fun node hnode => List.mem_of_mem_filter (List.mem_reverse.mp hnode)
  | archive _ =>
      simp only [Move.onWork]
      split
      · exact safe_move hw (hany rfl w.id w rfl _ _)
      · trivial
  | restart _ =>
      simp only [Move.onWork]
      split
      · exact safe_move hw (hany rfl w.id w rfl _ _)
      · trivial
  | reconciled _ =>
      intro u _ hu
      beta_reduce
      split
      · trivial
      · exact hrows hu (hany rfl) _ _ _ fun node hnode => List.mem_of_mem_filter hnode
  | fault _ error =>
      simp only [Move.onWork]
      split
      · trivial
      · next hopened =>
          simp only [not_or, Bool.not_eq_true] at hopened
          exact safe_move hw (hopen w.status rfl hopened.1 hopened.2 w rfl _ _)
  | start | resume | handle | ledger | verify => cases hsubject

/-- Every thread that is begun on a store that keeps the law is tame. -/
theorem begin_tame (h : R.Loose base) (hholds : R.law.holds db) (hbase : R.law.since base db)
    (hlive : ∀ w ∈ db.works.rows, w.status ≠ .blocked → w.status.terminal = false → R.Free w.id)
    (hbinds : ∀ w : Work, w.status = .running → R.Free w.id → ∀ identity phase context,
      R.later w (DB.bound identity (some phase) context w))
    {move : Move} (hmove : move.drives = true ∨ ∀ id, R.Free id) {thread : Option EngineThread}
    (hold : ∀ old ∈ thread, Tame R db old) : ∀ new ∈ move.begin cfg db thread, Tame R db new := by
  intro new hnew
  cases hsubject : move.subject with
  | some id =>
      have hthread : ∃ w, db.works.find id = some w ∧ new =
          ⟨if move.steps = true ∧ w.status = .running then some w else none, move.onWork cfg db w⟩ := by
        cases hfind : db.works.find id with
        | none => cases move <;> simp_all [Move.begin, Move.subject]
        | some w =>
            refine ⟨w, rfl, ?_⟩
            cases move <;> simp_all [Move.begin, Move.subject]
      obtain ⟨w, hfind, rfl⟩ := hthread
      exact h.onWork_safe hholds hbase hlive hbinds hmove hfind hsubject
  | none =>
      have hrow : ∀ {program : Program Unit}, (R.Safe db program fun _ _ => True) → Tame R db ⟨none, program⟩ :=
        fun hsafe => ⟨fun _ hnone => absurd hnone (by simp), hsafe⟩
      cases move with
      | start workflow id mode goal source authorization inputs command maxCalls nodeLimit =>
          simp only [Move.begin] at hnew
          split at hnew
          · cases hnew
          · cases hnew
            exact hrow ((safe_root fun _ _ => h.row _).mono fun _ _ _ _ => trivial)
      | resume id provider recovered =>
          cases hnew
          exact hrow (safe_resume h.resumes id provider recovered)
      | verify =>
          cases hnew
          exact hrow (safe_releaseRoot hbase h.newRoots)
      | ledger call =>
          simp only [Move.begin] at hnew
          split at hnew
          · next hledger =>
              cases hnew
              exact hrow (safe_last (allows_ledger hledger))
          · cases hnew
      | handle provider allowed =>
          simp only [Move.begin] at hnew
          split at hnew
          · next w e =>
              split at hnew
              · next latest hlatest =>
                  cases hnew
                  have hfree : R.Free w.id := (hold _ rfl).1 w rfl
                  rw [← Table.find_key hlatest] at hfree
                  exact hrow (free_onError (reads_of_find hholds hlatest) hfree)
              · cases hnew
          · exact hold new hnew
      | _ => cases hsubject

end RowLaw.Loose

namespace RowLaw

variable {R : RowLaw} {cfg : Config}

/-- A law that leaves every work item free is loose from any store. -/
theorem loose_of_free (hrow : ∀ w, R.row w) (hfree : ∀ id, R.Free id) (base : DB) : R.Loose base where
  row := hrow
  fresh _ _ _ _ := hfree _
  resumes w _ _ _ := hfree w.id w rfl _ _

/-- The engine, while the law holds and all programs under way keep it. -/
def Orderly (R : RowLaw) (s : Engine) : Prop :=
  Pool.Orderly R.guard (fun _ tag => ∀ w ∈ tag, R.Free w.id) s

/-- Where the law leaves every work item free, each turn keeps it, whatever the move. -/
theorem Orderly.after {s : Engine} (h : R.Orderly s) (hrow : ∀ w, R.row w) (hfree : ∀ id, R.Free id)
    (hbinds : ∀ w : Work, w.status = .running → ∀ identity phase context,
      R.later w (DB.bound identity (some phase) context w)) (turn : Turn Move) :
    R.Orderly (s.after (fun call db => call.exec db) (Move.begin cfg) turn) ∧
      R.law.since s.now (s.after (fun call db => call.exec db) (Move.begin cfg) turn).now := by
  have hloose := loose_of_free hrow hfree s.now
  refine Pool.Orderly.after h (fun _ _ _ _ hold => hold) turn fun i move _ => ?_
  exact hloose.begin_tame h.1 (R.law.refl s.now) (fun w _ _ _ => hfree w.id)
    (fun w hrunning _ => hbinds w hrunning) (Or.inr hfree) (h.2 i)

end RowLaw
end AutoAgents
