import AutoAgents.EngineCalls

/-! Every program of the engine sends only calls of the engine, in any interleaving; so what these calls
keep of the store holds in every run. -/

namespace AutoAgents

open Base Program
open Git (Path Commit)

/-! ### Calls keep the rows placed -/

section

variable {cfg : Config} {P : Permits} {db : DB} {call : Call}

/-- Every record a call of the engine relies on was read. -/
theorem EngineCall.seen (h : EngineCall cfg P db call) (hledger : call.onLedger = false) :
    ∀ record ∈ call.records, db.Seen record := by
  intro record hrecord
  have hsingle : ∀ {w : Work}, db.Seen w → call.records = [w] → db.Seen record := by
    intro w hw hrecords
    rw [hrecords] at hrecord
    rwa [List.mem_singleton.mp hrecord]
  cases h with
  | ledger h =>
      rw [hledger] at h
      cases h
  | root => exact absurd hrecord List.not_mem_nil
  | step hw _ _ _ _ hrecords => exact hsingle hw hrecords
  | @joined w child call candidate hw hstatus hwaiting hchild hseen hdone hcall =>
      have hrewrites : call.records = [w] ∧ Rewrites cfg P db w call :=
        childDone_rewrites hstatus hwaiting hchild hseen hdone hcall
      exact hsingle hw hrewrites.1
  | @gathered w children call candidate hw hstatus hwaiting hdone hsub hcall =>
      have hrewrites : call.records = [w] ∧ Rewrites cfg P db w call :=
        childrenDone_rewrites hstatus hwaiting hdone hsub hcall
      exact hsingle hw hrewrites.1
  | @approved w hashes chosen call hw hcall =>
      have hrewrites : call.records = [w] ∧ Rewrites cfg P db w call := approve_rewrites hw.1 hcall
      exact hsingle hw hrewrites.1
  | @answered w rejected pending call hw hrejects hcall =>
      have hrewrites : call.records = [w] ∧ Rewrites cfg P db w call := answer_rewrites hw.1 hrejects hcall
      exact hsingle hw hrewrites.1
  | generated hw hcall =>
      unfold generate at hcall
      split at hcall
      · cases hcall
      · cases hcall
        exact hsingle hw rfl
  | runs hw | accepted hw | awaits hw | promoted _ _ _ _ hw | readied hw | linked hw | resumes hw | fails hw
  | presented hw | cancelled hw | archived hw | restarted hw => exact hsingle hw rfl

theorem EngineCall.allowed (h : EngineCall cfg P db call) : placedLaw.Allows db call := by
  cases hledger : call.onLedger with
  | true => exact RowLaw.allows_ledger hledger
  | false =>
      refine RowLaw.allows (h.seen hledger) ?_ ?_
      · intro w hw hplaced hadmits _ _ _
        exact (h.rewrites hw hadmits).placed hplaced
      · exact fun _ w _ _ hadds _ => (h.adds hadds).placed

end

/-- The calls of the engine. -/
def engineGuard (cfg : Config) (P : Permits) : Guard (fun (call : Call) (db : DB) => call.exec db) placedLaw.law where
  allows := EngineCall cfg P
  later hs h := h.later hs
  keeps hholds h hexec := h.allowed _ (placedLaw.law.refl _) hholds _ hexec

/-! ### Programs that send only calls of the engine -/

/-- A program sends only calls of the engine. -/
abbrev Program.Sent (cfg : Config) (P : Permits) {α : Type} (db : DB) (p : Program α) (Q : DB → α → Prop) : Prop :=
  p.Safe (engineGuard cfg P) db Q

section

variable {cfg : Config} {P : Permits} {o : Observed} {db : DB} {w : Work} {c : Contract} {p : Program Unit} {call : Call}

theorem sent_one {Q : DB → Unit → Prop} (h : EngineCall cfg P db call)
    (hQ : ∀ db' db'', db.Since db' → call.exec db' = .ok db'' → Q db'' ()) :
    (one call).Sent cfg P db Q := ⟨h, fun s t hs _ hexec => hQ s t hs hexec⟩

theorem sent_last (h : EngineCall cfg P db call) : (one call).Sent cfg P db fun _ _ => True :=
  sent_one h fun _ _ _ _ => trivial

/-- A record that is read again. -/
theorem sent_work {w₀ : Work} (h : db.Seen w₀) :
    (work w₀.id).Sent cfg P db fun db' w => db.Since db' ∧ db'.Seen w ∧ Work.Later w₀ w ∧
      w.planned = w₀.planned := by
  intro s hs hholds
  obtain ⟨-, row, hfind, hlater, hplanned⟩ := h.later hs
  simp only [DB.work, hfind, Prog.ofExcept]
  exact ⟨hs, RowLaw.reads_of_find hholds hfind, hlater, hplanned⟩

theorem sent_work_any (id : String) :
    (work id).Sent cfg P db fun db' w => db.Since db' ∧ db'.Seen w ∧ w.id = id := by
  intro s hs hholds
  cases hfind : s.works.find id with
  | none =>
      simp only [DB.work, hfind, Prog.ofExcept]
      trivial
  | some row =>
      simp only [DB.work, hfind, Prog.ofExcept]
      exact ⟨hs, RowLaw.reads_of_find hholds hfind, Table.find_key hfind⟩

/-- `transition` answers with a record of the row it has written. -/
theorem sent_transition {status : Status} {changes : Changes} {operation : Option OperationId}
    {operations : List OperationId} (hw : db.Seen w)
    (h : EngineCall cfg P db (.transition w status changes operation operations)) :
    (transition w status changes operation operations).Sent cfg P db fun db' a =>
      db.Since db' ∧ db'.Seen a ∧ Work.Later w a ∧ a.planned = w.planned := by
  refine ⟨h, fun s t hs hholds hexec => ?_⟩
  have hst := ((engineGuard cfg P).keeps hholds (h.later hs) hexec).2
  exact (sent_work ((hw.later hs).later hst)).mono fun u a htu hpost =>
    ⟨placedLaw.law.trans hs (placedLaw.law.trans hst hpost.1), hpost.2⟩

/-- A new work item is moved on. -/
theorem sent_promote {w₀ : Work} {changes : Changes} (hchanges : Promotes w₀ changes)
    (halone : changes.context ≠ none → P.alone) (hw : db.Seen w₀) :
    (promote w₀.id changes).Sent cfg P db fun _ _ => True := by
  refine Prog.Safe.bind ((sent_work hw).mono ?_)
  rintro s w - ⟨-, hseen, hlater, hplanned⟩
  refine Prog.Safe.bind ((sent_transition hseen (.promoted hchanges halone hlater hplanned hseen)).mono ?_)
  rintro t w' - ⟨-, hseen', -⟩
  exact sent_last (.readied hseen')

theorem sent_childOn {id goal : String} {source : Commit} {inputs : Inputs} {scope : List Path}
    {checks : List VerificationSpec} {limit : Nat} {operation : Option OperationId} {changes : Changes}
    (hw : db.Seen w) (h : EngineCall cfg P db (.child w id .fix goal source inputs scope checks limit operation))
    (halone : changes.context ≠ none → P.alone)
    (hchanges : ∀ c : Contract, c.inputs = inputs → c.mode = .fix →
      Promotes (DB.newWork c (some w.id) (DB.childPhase .fix) limit) changes) :
    (do
      one (.child w id .fix goal source inputs scope checks limit operation)
      promote id changes : Program Unit).Sent cfg P db fun _ _ => True := by
  refine Prog.Safe.bind ⟨h, fun s t hs hholds hexec => ?_⟩
  have hkept := (engineGuard cfg P).keeps hholds (h.later hs) hexec
  obtain ⟨pc, c, -, hbuild, -, -, -, hfind⟩ :=
    DB.child_found ((hw.later hs).2.imp fun _ hrow => hrow.1) hexec
  obtain ⟨-, hid, hmode, -, -, -, -, -, hinputs, -⟩ := Contract.build_eq_ok hbuild
  have hnew : (DB.newWork c (some w.id) (DB.childPhase .fix) limit).id = id := hid
  rw [← hnew]
  exact sent_promote (hchanges c hinputs hmode) halone (RowLaw.reads_of_find hkept.1 hfind)

theorem sent_releaseRoot {workflow id goal : String} {source : Commit} {specs : List VerificationSpec}
    {authorization : Authorization} {inputs : Inputs} :
    (releaseRoot workflow id goal source specs authorization inputs).Sent cfg P db fun _ _ => True := by
  refine Prog.Safe.bind ⟨.root, fun s t hs hholds hexec => ?_⟩
  have hkept := (engineGuard cfg P).keeps hholds .root hexec
  simp only [Call.exec, DB.createWorkflow, guard_ok, bind_ok] at hexec
  obtain ⟨-, c, hbuild, hcall⟩ := hexec
  split at hcall
  · cases hcall
  · obtain ⟨-, hfresh, rfl⟩ := DB.insertWork_ok hcall
    have hnew : (DB.newWork c none (DB.rootPhase .run) 1).id = id := (Contract.build_eq_ok hbuild).2.1
    have hfind := Table.find_insert_self s.works _ hfresh
    rw [← hnew]
    exact sent_promote (.proof c 1) (fun h => absurd rfl h) (RowLaw.reads_of_find hkept.1 hfind)

/-- `complete`, once its own transition is a call of the engine. -/
theorem sent_complete {result : WorkResult} {operation : Option OperationId} {deferred : Option Deferred}
    (hw : db.Seen w)
    (h : EngineCall cfg P db (.transition w .completed
      { result := some { result with contract := some w.contract }, failure := some none } operation [])) :
    (complete w result operation deferred).Sent cfg P db fun _ _ => True := by
  refine Prog.Safe.bind ((sent_transition hw h).mono ?_)
  rintro s updated - ⟨-, hseen, -⟩
  split
  · split
    · unfold enqueue
      split
      · trivial
      · exact sent_last (.linked hseen)
      · refine Prog.Safe.bind (sent_releaseRoot.mono ?_)
        rintro t - hst -
        exact sent_last (.linked (hseen.later hst))
    · trivial
  · trivial

/-- A step sends only calls of the engine. -/
theorem sent_step (hholds : placedLaw.law.holds db) (hw : db.Seen w) (hrun : w.status = .running)
    (hc : db.contract w.contract = .ok c) (halone : w.StartsAlone cfg o → P.alone)
    (hstep : w.step cfg o db c = .ok p) : p.Sent cfg P db fun _ _ => True := by
  have hfirst : ∀ {call : Call} {rest : Program Unit}, call.records = [w] →
      w.step cfg o db c = .ok (.send call rest) → EngineCall cfg P db call :=
    fun hrecords hsend => .step hw hrun (placedLaw.law.refl db) hc hsend hrecords halone
  have hmoves : ∀ {status phase context p}, Moves w status phase context p →
      w.step cfg o db c = .ok p → p.Sent cfg P db fun _ _ => True := by
    rintro status phase context _ ⟨failure, operation, rfl⟩ hstep
    exact sent_last (hfirst rfl hstep)
  cases step_ok hstep with
  | document _ hend =>
      cases hend with
      | moved hmoved => exact hmoves hmoved hstep
      | planned => exact sent_last (hfirst rfl hstep)
      | variant => exact sent_complete hw (hfirst rfl hstep)
  | classify _ hend => cases hend <;> exact sent_last (hfirst rfl hstep)
  | schedule _ _ hend =>
      cases hend with
      | done | limited | batch => exact sent_last (hfirst rfl hstep)
      | @starts task _ hsingle _ hstart =>
          obtain ⟨checks, -, rfl⟩ := startTask_ok hstart
          exact sent_childOn hw (hfirst rfl hstep) (fun _ => halone hsingle) fun c hinputs =>
            .task c _ _ _ _ (by rw [hinputs])
  | implement _ _ hend =>
      obtain ⟨proposal, candidate, manifest, -, rfl⟩ := stepImplement_ok hend
      exact sent_last (hfirst rfl hstep)
  | persistence _ hend =>
      rcases stepPersistence_ok hend with rfl | ⟨manifest, rfl⟩ <;> exact sent_last (hfirst rfl hstep)
  | verify _ hend =>
      obtain ⟨report, -, ⟨phase, -, rfl⟩ | ⟨-, rfl⟩⟩ := stepVerify_ok hend
      · exact sent_last (hfirst rfl hstep)
      · exact sent_complete hw (hfirst rfl hstep)
  | finalize _ hend =>
      obtain ⟨report, candidate, -, -, -, -, rfl⟩ := stepFinalize_ok hend
      exact sent_last (hfirst rfl hstep)
  | review _ hend =>
      cases hend with
      | finalizes | judged | accepted | reviewed => exact sent_last (hfirst rfl hstep)
      | notBug => exact sent_complete hw (hfirst rfl hstep)
  | artifactVerify _ hend => cases hend <;> exact sent_last (hfirst rfl hstep)
  | diagnose hphase hend =>
      cases hend with
      | asks | runs | accepts => exact sent_last (hfirst rfl hstep)
      | @resumes id child hfind hblocked hcategory =>
          have hresumes : Resumes child .ready { failure := some none } :=
            .retried (Or.inl hblocked) (retried_of_category hcategory)
          refine Prog.Safe.bind ((sent_last (.resumes (RowLaw.reads_of_find hholds hfind) hresumes)).mono
            fun s _ hs _ => ?_)
          exact sent_last (.awaits (hw.later hs) hrun hphase)
      | fixes =>
          split at hstep
          · next hchecks =>
              rw [if_pos hchecks]
              exact sent_childOn hw (hfirst rfl hstep) (fun h => absurd rfl h) fun c hinputs =>
                .delegated c _ _ (by rw [hinputs])
          · next hchecks =>
              rw [if_neg hchecks]
              exact Prog.Safe.bind ((sent_last (hfirst rfl hstep)).mono fun _ _ _ _ => trivial)
  | acceptance hphase hend =>
      obtain ⟨proposal, report, -, rfl⟩ := stepAcceptance_ok hend
      refine Prog.Safe.bind ((sent_last (.ledger rfl)).mono fun s _ hs _ => ?_)
      exact sent_last (.accepted (hw.later hs) hrun hphase)
  | deliver _ hend =>
      cases hend with
      | asks => exact sent_last (hfirst rfl hstep)
      | attested | handed | delivered => exact sent_complete hw (hfirst rfl hstep)

/-! ### Errors and children -/

theorem sent_consumeAll (ops : List Operation) :
    Program.Sent cfg P db (ops.forM fun op => one (.consume op.id)) fun _ _ => True :=
  Prog.safe_forM (P := fun _ => True) trivial fun _ _ _ _ _ => sent_last (.ledger rfl)

theorem sent_onError {provider : Option String} {allowed : Bool} {e : ControlError} (hw : db.Seen w) :
    (onError cfg provider allowed db w e).Sent cfg P db fun _ _ => True := by
  unfold onError
  simp only
  split
  · refine Prog.Safe.bind ((sent_consumeAll _).mono fun s _ hs _ => ?_)
    exact sent_last (.fails (hw.later hs) (.switched "codex"))
  · split
    · next hrepaired =>
        simp only [Work.repaired, Bool.and_eq_true, beq_iff_eq] at hrepaired
        refine Prog.Safe.bind ((sent_consumeAll _).mono fun s _ hs _ => ?_)
        exact sent_last (.fails (hw.later hs) (.repaired hrepaired.1.1.2))
    · split
      · next hasks =>
          simp only [Work.asksAgain, Bool.and_eq_true, decide_eq_true_eq] at hasks
          exact sent_last (.fails hw (.asked hasks.2))
      · exact sent_last (.fails hw (.blocked _))

theorem sent_block (hw : db.Seen w) (failure : Option Failure) :
    (block w failure).Sent cfg P db fun _ _ => True := sent_last (.fails hw (.blocked failure))

theorem sent_childDone {candidate : Except ControlError Candidate} {child : Work} (hw : db.Seen w)
    (hwaiting : w.status = .waiting) (hchild : w.context.waitingFor = some .child)
    (hid : w.context.child = some child.id) (hseen : db.Seen child) :
    (childDone candidate w child).Sent cfg P db fun _ _ => True := by
  have hjoined : child.status = .completed → ∀ call, childDone candidate w child = .send call (.pure ()) →
      EngineCall cfg P db call := fun hdone call hcall => .joined hw hwaiting hchild hid hseen hdone hcall
  unfold childDone at hjoined ⊢
  split
  · next hdone =>
      simp only [hdone, true_implies] at hjoined
      cases candidate with
      | error e => trivial
      | ok candidate =>
          cases htasks : doneWith w child with
          | error e => trivial
          | ok tasks =>
              rw [htasks] at hjoined
              exact sent_last (hjoined _ rfl)
  · exact sent_block hw _
  · trivial

/-- The rows found under some identities, in their order. -/
theorem found_sublist (db : DB) (ids : List String) :
    ((ids.filterMap db.works.find).map (·.id)).Sublist ids := by
  induction ids with
  | nil => exact List.Sublist.slnil
  | cons id ids ih =>
      cases hfind : db.works.find id with
      | none =>
          rw [List.filterMap_cons_none hfind]
          exact ih.cons id
      | some row =>
          rw [List.filterMap_cons_some hfind, List.map_cons, Table.find_key hfind]
          exact ih.cons_cons id

theorem sent_childrenDone {candidate : Except ControlError Candidate} {children : List Work} (hw : db.Seen w)
    (hwaiting : w.status = .waiting) (hchildren : w.context.waitingFor = some .children)
    (hseen : ∀ child ∈ children, db.Seen child) (hsub : (children.map (·.id)).Sublist w.context.children) :
    (childrenDone candidate w children).Sent cfg P db fun _ _ => True := by
  have hgathered : (∀ child ∈ children, child.status = .completed) →
      ∀ call, childrenDone candidate w children = .send call (.pure ()) → EngineCall cfg P db call :=
    fun hdone call hcall => .gathered hw hwaiting hchildren
      (fun child hmem => ⟨hseen child hmem, hdone child hmem⟩) hsub hcall
  unfold childrenDone at hgathered ⊢
  split
  · next hall =>
      have hdone : ∀ child ∈ children, child.status = .completed :=
        fun child hmem => by simpa using List.all_eq_true.mp hall child hmem
      specialize hgathered hdone
      rw [if_pos hall] at hgathered
      cases htasks : children.mapM finishedTask with
      | error e => trivial
      | ok tasks =>
          rw [htasks] at hgathered
          cases candidate with
          | error e => trivial
          | ok candidate => exact sent_last (hgathered _ rfl)
  · split
    · exact sent_block hw _
    · trivial

/-! ### Resuming -/

theorem sent_resumes {status : Status} {changes : Changes} {operations : List OperationId} (hw : db.Seen w)
    (h : Resumes w status changes) :
    (one (.transition w status changes none operations)).Sent cfg P db fun _ _ => True :=
  sent_last (.resumes hw h)

theorem sent_recover (item : OperationId × Delivery) : (recover item).Sent cfg P db fun _ _ => True := by
  intro s _ _
  beta_reduce
  split
  · trivial
  · refine Prog.Safe.bind (sent_one (.ledger rfl) fun t _ _ _ => ?_)
    refine Prog.Safe.bind ((sent_work_any _).mono ?_)
    rintro u owner - ⟨-, hseen, -⟩
    split
    · next hcategory => exact sent_resumes hseen (.recovered hcategory)
    · trivial

theorem sent_switchProvider (hw : db.Seen w) (provider : Option String) :
    (switchProvider w provider).Sent cfg P db fun s root => s.Seen root := by
  cases provider with
  | none => exact hw
  | some name =>
      refine Prog.Safe.bind fun s hs hholds => ?_
      change Program.Sent cfg P s (_ >>= _) _
      refine Prog.Safe.bind (Prog.Safe.mono (Q := fun _ _ => True) ?_ ?_)
      · refine Prog.safe_forM (P := fun _ => True) trivial fun node hnode t hst _ => ?_
        obtain ⟨hmem, hlive⟩ := List.mem_filter.mp hnode
        simp only [Bool.and_eq_true, Bool.not_eq_true'] at hlive
        have hseen : s.Seen node := RowLaw.reads_of_find hholds (Table.find_of_mem hmem)
        exact sent_resumes (hseen.later hst) (.provider name hlive.1.2)
      · rintro t - hst -
        exact (sent_work ((hw.later hs).later hst)).mono fun _ _ _ hpost => hpost.2.1

theorem sent_liftTaskLimit (hw : db.Seen w) : (liftTaskLimit w).Sent cfg P db fun s root => s.Seen root := by
  unfold liftTaskLimit
  split
  · next hlimit => exact (sent_transition hw (.resumes hw (.limit hlimit))).mono fun _ _ _ hpost => hpost.2.1
  · exact hw

theorem sent_waitAgain (hw : db.Seen w) : (waitAgain w).Sent cfg P db fun _ _ => True := by
  unfold waitAgain
  split
  · exact sent_resumes hw .waits
  · trivial

theorem sent_retryOwned (id : String) : (retryOwned id).Sent cfg P db fun _ _ => True := by
  intro s _ hholds
  cases hfind : s.works.find id with
  | none =>
      simp only [DB.work, hfind]
      trivial
  | some node =>
      simp only [DB.work, hfind]
      have hseen := RowLaw.reads_of_find hholds hfind
      split
      · next hstopped =>
          refine Prog.Safe.bind
            ((sent_transition hseen (.resumes hseen (.retried hstopped.1 hstopped.2))).mono ?_)
          rintro t again - ⟨-, hseen', -⟩
          split
          · exact sent_resumes hseen' .waits
          · trivial
      · trivial

theorem sent_retryRoot (hw : db.Seen w) : (retryRoot w).Sent cfg P db fun _ _ => True := by
  unfold retryRoot
  split
  · next hblocked =>
      split
      · next hretried =>
          intro s hs _
          have hresumes : Resumes w .ready { failure := some none } := .retried (Or.inl hblocked) hretried
          refine Prog.Safe.bind ((sent_transition (hw.later hs) (.resumes (hw.later hs) hresumes)).mono ?_)
          exact fun t root _ hpost => sent_waitAgain hpost.2.1
      · trivial
  · next hrunning =>
      refine Prog.Safe.bind ((sent_transition hw (.resumes hw (.stopped hrunning))).mono ?_)
      exact fun t root _ hpost => sent_waitAgain hpost.2.1
  · exact sent_waitAgain hw

theorem sent_resume (id : String) (provider : Option String) (recovered : List (OperationId × Delivery)) :
    (resume id provider recovered).Sent cfg P db fun _ _ => True := by
  refine Prog.Safe.bind ((sent_work_any id).mono ?_)
  rintro s w - ⟨-, hw, -⟩
  refine Prog.Safe.bind (Prog.Safe.mono (Q := fun t root => DB.Seen t root) ?_ ?_)
  · intro t hst hholds
    beta_reduce
    split
    · next workflow _ _ =>
        cases hfind : t.works.find workflow.root with
        | none =>
            simp only [DB.work, hfind, Prog.ofExcept]
            trivial
        | some root =>
            simp only [DB.work, hfind, Prog.ofExcept]
            exact RowLaw.reads_of_find hholds hfind
    · exact hw.later hst
  rintro t root - hroot
  refine Prog.Safe.bind (Prog.Safe.mono (Q := fun _ _ => True) ?_ ?_)
  · exact Prog.safe_forM (P := fun _ => True) trivial fun item _ u _ _ => sent_recover item
  rintro u - htu -
  refine Prog.Safe.bind ((sent_work (hroot.later htu)).mono ?_)
  rintro v root - ⟨-, hroot, -⟩
  split
  · trivial
  refine Prog.Safe.bind ((sent_switchProvider hroot provider).mono ?_)
  rintro v root - hroot
  refine Prog.Safe.bind ((sent_liftTaskLimit hroot).mono ?_)
  rintro v root - hroot
  refine Prog.Safe.bind (Prog.Safe.mono (Q := fun _ _ => True) ?_ ?_)
  · intro x _ _
    exact Prog.safe_ofExcept fun _ _ => trivial
  rintro x selected hvx -
  refine Prog.Safe.bind (Prog.Safe.mono (Q := fun _ _ => True) ?_ ?_)
  · exact Prog.safe_forM (P := fun _ => True) trivial fun id _ y _ _ => sent_retryOwned id
  rintro y - hxy -
  exact sent_retryRoot ((hroot.later hvx).later hxy)

/-! ### Moves -/

/-- What only some runs do is permitted to the program that a move begins. -/
def Move.Permitted (cfg : Config) (P : Permits) (db : DB) : Move → Prop
  | .step id o => ∀ w, db.works.find id = some w → w.status = .running → w.StartsAlone cfg o → P.alone
  | .answer _ rejected _ => rejected = true → P.rejects
  | .archive id => ∀ w, db.works.find id = some w → P.archives w
  | _ => True

theorem Move.permitted_all (cfg : Config) (db : DB) (move : Move) : move.Permitted cfg .all db := by
  cases move <;> first | trivial | exact fun _ => trivial | exact fun _ _ => trivial | exact fun _ _ _ _ => trivial

/-- A loop over rows, each of which is moved on. -/
theorem sent_rows {nodes : List Work} {f : Work → Call} (hnodes : ∀ node ∈ nodes, db.Seen node)
    (h : ∀ s node, node ∈ nodes → DB.Seen s node → EngineCall cfg P s (f node)) :
    Program.Sent cfg P db (nodes.forM fun node => one (f node)) fun _ _ => True :=
  Prog.safe_forM (P := fun _ => True) trivial fun node hnode t hst _ =>
    sent_last (h t node hnode ((hnodes node hnode).later hst))

theorem sent_onWork {move : Move} {id : String} (hholds : placedLaw.law.holds db)
    (hpermitted : move.Permitted cfg P db) (hfind : db.works.find id = some w)
    (hsubject : move.subject = some id) : (move.onWork cfg db w).Sent cfg P db fun _ _ => True := by
  have hw := RowLaw.reads_of_find hholds hfind
  cases move with
  | run _ =>
      simp only [Move.onWork]
      split
      · next hready => exact sent_last (.runs hw hready)
      · trivial
  | step _ o =>
      simp only [Move.onWork]
      split
      · next hrun =>
          split
          · trivial
          · next c hcontract =>
              split
              · trivial
              · next program hstep =>
                  cases hsubject
                  exact sent_step hholds hw hrun hcontract (hpermitted w hfind hrun) hstep
      · trivial
  | child _ candidate =>
      simp only [Move.onWork]
      split
      · next node hwaiting hchild hnode =>
          obtain ⟨child, hid, hrow⟩ := Option.bind_eq_some_iff.mp hnode
          refine sent_childDone hw hwaiting hchild ?_ (RowLaw.reads_of_find hholds hrow)
          rw [hid, Table.find_key hrow]
      · trivial
  | children _ candidate =>
      simp only [Move.onWork]
      split
      · next hwaiting =>
          refine sent_childrenDone hw hwaiting.1 hwaiting.2 (fun child hmem => ?_) (found_sublist db _)
          obtain ⟨id, -, hrow⟩ := List.mem_filterMap.mp hmem
          exact RowLaw.reads_of_find hholds hrow
      · trivial
  | approve _ hashes chosen =>
      have hcall : ∀ call, approve w hashes chosen = .send call (.pure ()) → EngineCall cfg P db call :=
        fun call hcall => .approved hw hcall
      simp only [Move.onWork, approve] at hcall ⊢
      split
      · trivial
      · split
        · trivial
        · next gate hgate hwaiting =>
            simp only [hgate, if_neg hwaiting] at hcall
            exact sent_last (hcall _ rfl)
  | answer _ rejected pending =>
      have hcall : ∀ call, answer w rejected pending = .send call (.pure ()) → EngineCall cfg P db call :=
        fun call hcall => .answered hw hpermitted hcall
      simp only [Move.onWork, answer] at hcall ⊢
      split
      · trivial
      · next hwaiting =>
          rw [if_neg hwaiting] at hcall
          exact sent_last (hcall _ rfl)
  | generate _ id goal variant source scope =>
      have hcall : ∀ call, generate w id goal variant source scope = .send call (.pure ()) →
          EngineCall cfg P db call := fun call hcall => .generated hw hcall
      simp only [Move.onWork, generate] at hcall ⊢
      split
      · trivial
      · next hwaiting =>
          rw [if_neg hwaiting] at hcall
          exact sent_last (hcall _ rfl)
  | present _ candidate =>
      simp only [Move.onWork]
      split
      · next hwaiting => exact sent_last (.presented hw hwaiting.1 hwaiting.2)
      · trivial
  | cancel _ =>
      refine Prog.Safe.bind fun s _ hs => ?_
      refine sent_rows (fun node hnode => RowLaw.reads_of_find hs (Table.find_of_mem ?_))
        fun _ _ _ hseen => .cancelled hseen
      exact List.mem_of_mem_filter (List.mem_reverse.mp hnode)
  | archive _ =>
      simp only [Move.onWork]
      split
      · next hterminal =>
          cases hsubject
          exact sent_last (.archived hw hterminal (hpermitted w hfind))
      · trivial
  | restart _ =>
      simp only [Move.onWork]
      split
      · next hblocked => exact sent_last (.restarted hw hblocked)
      · trivial
  | reconciled _ =>
      intro s _ hs
      beta_reduce
      split
      · trivial
      · refine sent_rows (fun node hnode => ?_) fun t node hnode hseen => ?_
        · exact RowLaw.reads_of_find hs (Table.find_of_mem (List.mem_of_mem_filter hnode))
        · have hnode := (List.mem_filter.mp hnode).2
          simp only [Bool.and_eq_true, beq_iff_eq] at hnode
          exact .resumes hseen (.recovered hnode.2)
  | fault _ error =>
      simp only [Move.onWork]
      split
      · trivial
      · exact sent_block hw _
  | start | resume | handle | ledger | verify => cases hsubject

/-- Every program that a move begins sends only calls of the engine. -/
theorem sent_begin {move : Move} {thread : Option EngineThread} (hholds : placedLaw.law.holds db)
    (hpermitted : move.Permitted cfg P db) (hold : ∀ old ∈ thread, Program.Sent cfg P db old.program fun _ _ => True) :
    ∀ new ∈ move.begin cfg db thread, Program.Sent cfg P db new.program fun _ _ => True := by
  intro new hnew
  cases hsubject : move.subject with
  | some id =>
      have hthread : ∃ w, db.works.find id = some w ∧ new.program = move.onWork cfg db w := by
        cases hfind : db.works.find id with
        | none => cases move <;> simp_all [Move.begin, Move.subject]
        | some w =>
            refine ⟨w, rfl, ?_⟩
            cases move <;> simp_all [Move.begin, Move.subject] <;> rw [← hnew]
      obtain ⟨w, hfind, hprogram⟩ := hthread
      rw [hprogram]
      exact sent_onWork hholds hpermitted hfind hsubject
  | none =>
      cases move with
      | start workflow id mode goal source authorization inputs command maxCalls nodeLimit =>
          simp only [Move.begin] at hnew
          split at hnew
          · cases hnew
          · cases hnew
            exact sent_last .root
      | resume id provider recovered =>
          cases hnew
          exact sent_resume id provider recovered
      | verify =>
          cases hnew
          exact sent_releaseRoot
      | ledger call =>
          simp only [Move.begin] at hnew
          split at hnew
          · next hledger =>
              cases hnew
              exact sent_last (.ledger hledger)
          · cases hnew
      | handle provider allowed =>
          simp only [Move.begin] at hnew
          split at hnew
          · split at hnew
            · next latest hlatest =>
                cases hnew
                exact sent_onError (RowLaw.reads_of_find hholds hlatest)
            · cases hnew
          · exact hold new hnew
      | _ => cases hsubject

end

/-! ### Runs -/

/-- The engine, while all programs under way send only calls of the engine. -/
def Engine.Sending (cfg : Config) (P : Permits) (s : Engine) : Prop :=
  Pool.Orderly (engineGuard cfg P) (fun _ _ => True) s

/-- A turn begins no program but one that is permitted. -/
def Engine.Begins (cfg : Config) (P : Permits) (s : Engine) (turn : Turn Move) : Prop :=
  ∀ i move, turn = .begin i move → move.Permitted cfg P s.now

theorem Engine.begins_all (cfg : Config) (s : Engine) (turn : Turn Move) : Engine.Begins cfg .all s turn :=
  fun _ move _ => move.permitted_all cfg s.now

theorem Engine.Sending.next {cfg : Config} {P : Permits} {s : Engine} (h : Engine.Sending cfg P s)
    {turn : Turn Move} (hbegins : Engine.Begins cfg P s turn) :
    Engine.Sending cfg P (s.after (fun call db => call.exec db) (Move.begin cfg) turn) := by
  refine (h.after (fun _ _ _ _ h => h) turn fun i move hmove new hnew => ⟨trivial, ?_⟩).1
  exact sent_begin h.1 (hbegins i move hmove) (fun old hmem => (h.2 i old hmem).2) new hnew

/-- Rows that are placed, before there are any. -/
theorem placed_empty : placedLaw.law.holds .empty := by
  intro w hw
  cases hw

/-- A property of the store that the calls executed by the turns of a run keep. -/
structure Kept (cfg : Config) (P : Permits) (C : Engine → Turn Move → Engine → Prop) (I : DB → Prop) : Prop where
  begins : ∀ s turn t, C s turn t → Engine.Begins cfg P s turn
  origin : I .empty
  keep : ∀ s i thread call rest t, C s (.go i) t → s.threads i = some thread →
    thread.program = .send call rest → placedLaw.law.holds s.now → I s.now → EngineCall cfg P s.now call →
    call.exec s.now = .ok t.now → I t.now

namespace Kept

variable {cfg : Config} {P : Permits} {C : Engine → Turn Move → Engine → Prop} {I : DB → Prop}
  {trace : List (Taken Engine (Turn Move))} {s : Engine}

/-- It holds before the first turn. -/
theorem start (h : Kept cfg P C I) (s : Engine) (hs : (engineSystem cfg .empty).start s) :
    Engine.Sending cfg P s ∧ I s.now := by
  cases hs
  exact ⟨Pool.orderly_origin placed_empty, h.origin⟩

/-- One turn keeps it. -/
theorem next (h : Kept cfg P C I) (s : Engine) (turn : Turn Move) (t : Engine)
    (hs : Engine.Sending cfg P s ∧ I s.now) (hturn : C s turn t) (hstep : (engineSystem cfg .empty).step s turn t) :
    Engine.Sending cfg P t ∧ I t.now := by
  cases hstep
  refine ⟨hs.1.next (h.begins s turn _ hturn), ?_⟩
  have hafter := @Pool.after_now _ _ _ _ _ (fun call db => Call.exec db call) (Move.begin cfg) s turn
  rcases hafter with hsame | ⟨i, thread, call, rest, rfl, hthread, hprogram, hexec⟩
  · rw [hsame]
    exact hs.2
  · have hsent := (hs.1.2 i thread hthread).2
    rw [hprogram] at hsent
    exact h.keep s i thread call rest _ hturn hthread hprogram hs.1.1 hs.2 hsent.1 hexec

/-- It holds throughout every run. -/
theorem throughout (h : Kept cfg P C I) (hrun : (engineSystem cfg .empty).Run trace s)
    (hC : System.Meets C trace) : Engine.Sending cfg P s ∧ I s.now :=
  hrun.invariant_of_meets h.start h.next hC

/-- It holds before every turn, which leaves the store alone or executes one call of the engine. -/
theorem turns (h : Kept cfg P C I) (hrun : (engineSystem cfg .empty).Run trace s)
    (hC : System.Meets C trace) {e : Taken Engine (Turn Move)} (he : e ∈ trace) :
    (Engine.Sending cfg P e.before ∧ I e.before.now) ∧ (e.after.now = e.before.now ∨
      ∃ call, EngineCall cfg P e.before.now call ∧ call.exec e.before.now = .ok e.after.now) := by
  obtain ⟨hbefore, hstep⟩ := hrun.before_of_meets h.start h.next hC he
  have hafter : e.after = e.before.after (fun call db => call.exec db) (Move.begin cfg) e.label := hstep
  rw [hafter]
  exact ⟨hbefore, hbefore.1.after_now e.label⟩

end Kept

end AutoAgents
