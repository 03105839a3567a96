import AutoAgents.EngineOutcomes

/-! What a law of the rows asks of the engine: each program is safe once the transitions it makes on the
records it has read keep the law. -/

namespace AutoAgents

open Base Program
open Git (Commit)

namespace RowLaw

variable {R : RowLaw} {db : DB} {w : Work}

/-- A transition of a record keeps the law, where the store admits it. -/
def Keeps (R : RowLaw) (w : Work) (status : Status) (changes : Changes) : Prop :=
  R.row w → (status = w.status ∨ status ∈ w.status.transitions) →
    R.row (DB.changed status changes w) ∧ R.later w (DB.changed status changes w)

theorem safe_move {status : Status} {changes : Changes} {operation : Option OperationId}
    {operations : List OperationId} (hw : R.Reads db w) (h : R.Keeps w status changes) :
    R.Safe db (one (.transition w status changes operation operations)) fun _ _ => True :=
  safe_last (allows_transition hw h)

/-- A new work item is moved on: each of its two transitions starts from the row as it then is. -/
theorem safe_promote {w₀ : Work} {changes : Changes} (hw : R.Reads db w₀)
    (hrun : ∀ w, Work.Later w₀ w → R.later w₀ w → R.Keeps w .running changes)
    (hready : ∀ w, Work.Later w₀ w → R.Keeps w .ready {}) :
    R.Safe db (promote w₀.id changes) fun _ _ => True := by
  refine Prog.Safe.bind ((safe_work hw).mono ?_)
  rintro s w - ⟨-, hread, -, hlater, hrel⟩
  refine Prog.Safe.bind ((safe_transition hread (hrun w hlater hrel)).mono ?_)
  rintro t w' - ⟨-, hread', -, hlater', -⟩
  have hchanged : Work.Later w (DB.changed .running changes w) := (DB.changed_rewritten _ _ w).later
  exact safe_move hread' (hready w' (hlater.trans (hchanged.trans hlater')))

/-- What a law asks of new roots: `Q` is known of every work item whose identity was free since `base`. -/
structure NewRoots (R : RowLaw) (base : DB) (Q : Work → Prop) : Prop where
  row : ∀ c : Contract, c.mode = .run → ∀ limit, R.row (DB.newWork c none .clarify limit)
  fresh : ∀ w before, w.mode = .run → R.law.since base before → before.works.find w.id = none → Q w
  verify : ∀ w, Q w → R.Keeps w .running { phase := some .verify }
  ready : ∀ w, Q w → R.Keeps w .ready {}

variable {base : DB} {Q : Work → Prop}

/-- A release proof: a new root that starts in `verify`. -/
theorem safe_releaseRoot {workflow id goal : String} {source : Commit} {specs : List VerificationSpec}
    {authorization : Authorization} {inputs : Inputs} (hbase : R.law.since base db)
    (h : R.NewRoots base Q) :
    R.Safe db (releaseRoot workflow id goal source specs authorization inputs) fun _ _ => True := by
  refine Prog.Safe.bind ((safe_root ?_).mono ?_)
  · exact fun c hbuild => h.row c (Contract.build_eq_ok hbuild).2.2.1 1
  rintro s - - ⟨c, before, hbuild, hbefore, hnone, -, hread⟩
  have hnew : (DB.newWork c none (DB.rootPhase .run) 1).id = id := (Contract.build_eq_ok hbuild).2.1
  have hmode : c.mode = .run := (Contract.build_eq_ok hbuild).2.2.1
  have hQ : ∀ w, Work.Later (DB.newWork c none (DB.rootPhase .run) 1) w → Q w := by
    intro w hlater
    refine h.fresh w before (hlater.mode.trans hmode) (R.law.trans hbase hbefore) ?_
    rw [hlater.id, hnew]
    exact hnone
  rw [← hnew]
  exact safe_promote hread (fun w hlater _ => h.verify w (hQ w hlater)) fun w hlater => h.ready w (hQ w hlater)

/-- `complete`, with the release proof of a delivered root. -/
theorem safe_complete {result : WorkResult} {operation : Option OperationId} {deferred : Option Deferred}
    (hw : R.Reads db w) (hbase : R.law.since base db) (h : R.NewRoots base Q)
    (hdone : ∀ result, R.Keeps w .completed { result := some result, failure := some none })
    (hlink : ∀ updated : Work, updated.id = w.id → ∀ result,
      R.Keeps updated .completed { result := some result }) :
    R.Safe db (complete w result operation deferred) fun _ _ => True := by
  refine Prog.Safe.bind ((safe_transition hw (hdone _)).mono ?_)
  rintro s updated - ⟨hs, hread, hid, -, -⟩
  split
  · split
    · unfold enqueue
      split
      · trivial
      · exact safe_move hread (hlink updated hid _)
      · refine Prog.Safe.bind ((safe_releaseRoot (R.law.trans hbase hs) h).mono ?_)
        rintro t - hst -
        exact safe_move (hread.later hst) (hlink updated hid _)
    · trivial
  · trivial

/-! ### Resuming -/

end RowLaw

/-- A failure that `resume` and a diagnosis may clear. -/
theorem retried_of_category {w : Work}
    (h : w.failureCategory ∉ [some .budget, some .reconciliation, some .migration]) : w.retried = true := by
  unfold Work.retried
  cases hcategory : w.failureCategory with
  | none => rfl
  | some category =>
      rw [hcategory] at h
      cases category <;> first | rfl | exact absurd (by decide) h

/-- What `resume` may do to a work item. -/
inductive Resumes (w : Work) : Status → Changes → Prop
  | recovered : w.failureCategory = some .reconciliation → Resumes w .ready { failure := some none }
  | provider (name : String) : w.status.terminal = false → Resumes w w.status
      { context := some { w.context with provider := some name } }
  | limit : w.context.waitingFor = some .taskLimit → Resumes w .ready
      { context := some { w.context with waitingFor := none } }
  | retried : w.status = .blocked ∨ w.status = .running → w.retried = true → Resumes w .ready
      { failure := some none }
  | stopped : w.status = .running → Resumes w .ready {}
  | waits : Resumes w .waiting {}

namespace RowLaw

variable {R : RowLaw} {db : DB} {w : Work}
  (h : ∀ w status changes, Resumes w status changes → R.Keeps w status changes)
include h

theorem safe_recover (item : OperationId × Delivery) : R.Safe db (recover item) fun _ _ => True := by
  intro s _ _
  beta_reduce
  split
  · trivial
  · refine Prog.Safe.bind (safe_one (allows_ledger rfl) fun t _ _ _ _ => ?_)
    refine Prog.Safe.bind ((safe_work_any _).mono ?_)
    rintro u owner - ⟨-, hread, -⟩
    split
    · next hcategory => exact safe_move hread (h owner _ _ (.recovered hcategory))
    · trivial

theorem safe_switchProvider (hw : R.Reads db w) (provider : Option String) :
    R.Safe db (switchProvider w provider) fun s root => R.Reads s root := by
  cases provider with
  | none => exact hw
  | some name =>
      refine Prog.Safe.bind fun s hs hholds => ?_
      change R.Safe s (_ >>= _) _
      refine Prog.Safe.bind (Prog.Safe.mono (Q := fun _ _ => True) ?_ ?_)
      · refine Prog.safe_forM (P := fun _ => True) trivial fun node hnode t hst _ => ?_
        obtain ⟨hmem, hlive⟩ := List.mem_filter.mp hnode
        simp only [Bool.and_eq_true, Bool.not_eq_true'] at hlive
        have hread : R.Reads s node := reads_of_find hholds (Table.find_of_mem hmem)
        exact safe_move (hread.later hst) (h node _ _ (.provider name hlive.1.2))
      · rintro t - hst -
        exact (safe_work ((hw.later hs).later hst)).mono fun _ _ _ hpost => hpost.2.1

theorem safe_liftTaskLimit (hw : R.Reads db w) :
    R.Safe db (liftTaskLimit w) fun s root => R.Reads s root := by
  unfold liftTaskLimit
  split
  · next hlimit =>
      exact (safe_transition hw (h w _ _ (.limit hlimit))).mono fun _ _ _ hpost => hpost.2.1
  · exact hw

theorem safe_waitAgain (hw : R.Reads db w) : R.Safe db (waitAgain w) fun _ _ => True := by
  unfold waitAgain
  split
  · exact safe_move hw (h w _ _ .waits)
  · trivial

theorem safe_retryOwned (id : String) : R.Safe db (retryOwned id) fun _ _ => True := by
  intro s _ hholds
  cases hfind : s.works.find id with
  | none =>
      simp only [DB.work, hfind]
      trivial
  | some node =>
      simp only [DB.work, hfind]
      have hread := reads_of_find hholds hfind
      split
      · next hstopped =>
          refine Prog.Safe.bind ((safe_transition hread (h node _ _ (.retried hstopped.1 hstopped.2))).mono ?_)
          rintro t again - ⟨-, hread', -⟩
          split
          · exact safe_move hread' (h again _ _ .waits)
          · trivial
      · trivial

theorem safe_retryRoot (hw : R.Reads db w) : R.Safe db (retryRoot w) fun _ _ => True := by
  unfold retryRoot
  split
  · next hblocked =>
      split
      · next hretried =>
          intro s hs hholds
          have hkeeps := h w _ _ (.retried (Or.inl hblocked) hretried)
          refine Prog.Safe.bind ((safe_transition (hw.later hs) hkeeps).mono ?_)
          exact fun t root _ hpost => safe_waitAgain h hpost.2.1
      · trivial
  · next hrunning =>
      refine Prog.Safe.bind ((safe_transition hw (h w _ _ (.stopped hrunning))).mono ?_)
      exact fun t root _ hpost => safe_waitAgain h hpost.2.1
  · exact safe_waitAgain h hw

/-- `resume` is safe once all it may do to a work item keeps the law. -/
theorem safe_resume (id : String) (provider : Option String) (recovered : List (OperationId × Delivery)) :
    R.Safe db (resume id provider recovered) fun _ _ => True := by
  refine Prog.Safe.bind ((safe_work_any id).mono ?_)
  rintro s w - ⟨-, hw, -⟩
  refine Prog.Safe.bind (Prog.Safe.mono (Q := fun t root => R.Reads t root) ?_ ?_)
  · intro t hst hholds
    beta_reduce
    split
    · next workflow _ _ =>
        cases hfind : t.works.find workflow.root with
        | none =>
            simp only [DB.work, hfind, Prog.ofExcept]
            trivial
        | some root =>
            simp only [DB.work, hfind, Prog.ofExcept]
            exact reads_of_find hholds hfind
    · exact hw.later hst
  rintro t root - hroot
  refine Prog.Safe.bind (Prog.Safe.mono (Q := fun _ _ => True) ?_ ?_)
  · exact Prog.safe_forM (P := fun _ => True) trivial fun item _ u _ _ => safe_recover h item
  rintro u - htu -
  refine Prog.Safe.bind ((safe_work (hroot.later htu)).mono ?_)
  rintro v root - ⟨-, hroot, -⟩
  split
  · trivial
  refine Prog.Safe.bind ((safe_switchProvider h hroot provider).mono ?_)
  rintro v root - hroot
  refine Prog.Safe.bind ((safe_liftTaskLimit h hroot).mono ?_)
  rintro v root - hroot
  refine Prog.Safe.bind (Prog.Safe.mono (Q := fun _ _ => True) ?_ ?_)
  · intro x _ _
    exact Prog.safe_ofExcept fun _ _ => trivial
  rintro x selected hvx -
  refine Prog.Safe.bind (Prog.Safe.mono (Q := fun _ _ => True) ?_ ?_)
  · exact Prog.safe_forM (P := fun _ => True) trivial fun id _ y _ _ => safe_retryOwned h id
  rintro y - hxy -
  exact safe_retryRoot h ((hroot.later hvx).later hxy)

end RowLaw
end AutoAgents
