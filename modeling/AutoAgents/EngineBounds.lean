import AutoAgents.EngineLaws

/-! Implementation is bounded: a fix that is in `implement` has a contract with a source scope and with a
required check of behavior. The phases that lead there are tied to the contract by an invariant of the
work rows; the two moves that reach `implement` past the classification are conditions on the run. -/

namespace AutoAgents

open Base Program
open Git (Path Commit Tree)

/-- A source scope, and a required check of behavior. -/
def ContractBody.Bounded (b : ContractBody) : Prop := b.scope ≠ [] ∧ b.checks.any (·.proves) = true

/-- The bound contract of a work item is bounded. -/
def Work.Bounded (w : Work) : Prop := ∃ b ∈ w.contract.head?, b.Bounded

/-- The contract of a work item has no checks yet, or a required check of behavior. -/
def Work.Proving (w : Work) : Prop :=
  ∀ b ∈ w.contract.head?, b.checks = [] ∨ b.checks.any (·.proves) = true

/-- What the phase of a fix says about its contract. -/
def boundedPhase (bounded : Prop) (context : Context) : Phase → Prop
  | .classify | .acceptance | .acceptanceReview | .deliver => True
  | .implement | .persistence => bounded
  | .verify | .review | .finalize | .artifactVerify =>
      bounded ∨ context.disposition = some "not_bug"
  | _ => False

/-- A live fix: its phase, and the phases its context can send it back to. -/
structure Staged (bounded : Prop) (phase : Phase) (context : Context) : Prop where
  phase : boundedPhase bounded context phase
  implementation : context.implementation.isSome = true → bounded
  finalizeReturn : context.finalizeReturn = none ∨ context.finalizeReturn = some .artifactVerify
  approvalPhase : context.approvalPhase = none ∨ context.approvalPhase = some .persistence ∧ bounded

/-- The invariant of the work rows. A run is never in `diagnose`: it is the phase of the roots of the
other modes, and nothing goes back to it. -/
structure Work.Guarded (w : Work) : Prop where
  tasks : ∀ task ∈ w.context.tasks, task.Bounded
  checks : w.mode ≠ .run → w.Proving
  diagnose : w.phase = .diagnose → w.mode ≠ .run
  returns : .diagnose ∉ w.context.returns
  implement : w.mode = .fix → w.phase = .implement → w.Bounded
  accepted : w.mode = .fix → w.context.implementation.isSome = true → w.Bounded
  staged : w.mode = .fix → w.status.terminal = false → Staged w.Bounded w.phase w.context

/-- Rows are guarded, and a contract that is bounded stays so. -/
def boundsLaw : RowLaw where
  row := Work.Guarded
  later w w' := w.Bounded → w'.Bounded
  refl _ h := h
  trans h h' hw := h' (h hw)
  charge _ _ h := ⟨h.tasks, h.checks, h.diagnose, h.returns, h.implement, h.accepted, h.staged⟩
  charge_later _ _ h := h
  charge_earlier _ _ h := h

/-! ### Transitions -/

section

variable {w : Work} {status : Status} {changes : Changes}

theorem live_of_admits (hlive : status.terminal = false)
    (h : status = w.status ∨ status ∈ w.status.transitions) : w.status.terminal = false := by
  rcases h with rfl | hmem
  · exact hlive
  · by_contra hterminal
    rw [Bool.not_eq_false] at hterminal
    rw [Status.transitions_terminal hterminal] at hmem
    cases hmem

/-- A live record moves to a phase that its contract allows. -/
theorem keeps_staged (hlive : w.status.terminal = false)
    (htasks : ∀ task ∈ (changes.context.getD w.context).tasks, task ∈ w.context.tasks)
    (hphase : changes.phase = some .diagnose → w.phase = .diagnose)
    (hreturns : .diagnose ∈ (changes.context.getD w.context).returns → .diagnose ∈ w.context.returns)
    (hstaged : w.mode = .fix → Staged w.Bounded w.phase w.context →
      Staged w.Bounded (changes.phase.getD w.phase) (changes.context.getD w.context)) :
    boundsLaw.Keeps w status changes := by
  rintro hguarded -
  refine ⟨⟨fun task htask => hguarded.tasks task (htasks task htask), hguarded.checks, ?_,
    fun hnew => hguarded.returns (hreturns hnew), ?_, ?_, ?_⟩, id⟩
  · intro hnew
    cases hchanged : changes.phase with
    | none =>
        rw [show (DB.changed status changes w).phase = changes.phase.getD w.phase from rfl, hchanged] at hnew
        exact hguarded.diagnose hnew
    | some phase =>
        rw [show (DB.changed status changes w).phase = changes.phase.getD w.phase from rfl, hchanged] at hnew
        rw [hchanged, show phase = .diagnose from hnew] at hphase
        exact hguarded.diagnose (hphase rfl)
  · intro hmode hphase
    have hnext := (hstaged hmode (hguarded.staged hmode hlive)).phase
    rw [show changes.phase.getD w.phase = .implement from hphase] at hnext
    exact hnext
  · exact fun hmode => (hstaged hmode (hguarded.staged hmode hlive)).implementation
  · exact fun hmode _ => hstaged hmode (hguarded.staged hmode hlive)

/-- A transition that changes neither phase nor context. -/
theorem keeps_same (hphase : changes.phase = none) (hcontext : changes.context = none) :
    boundsLaw.Keeps w status changes := by
  rintro hguarded hadmits
  have hkept : (DB.changed status changes w).phase = w.phase ∧
      (DB.changed status changes w).context = w.context := by
    simp only [DB.changed, hphase, hcontext, Option.getD_none, and_self]
  refine ⟨⟨?_, hguarded.checks, ?_, ?_, ?_, ?_, ?_⟩, id⟩
  · rw [hkept.2]
    exact hguarded.tasks
  · rw [hkept.1]
    exact hguarded.diagnose
  · rw [hkept.2]
    exact hguarded.returns
  · rw [hkept.1]
    exact hguarded.implement
  · rw [hkept.2]
    exact hguarded.accepted
  · rw [hkept.1, hkept.2]
    exact fun hmode hlive => hguarded.staged hmode (live_of_admits hlive hadmits)

/-- The context changes outside what the invariant reads, and the phase does not. -/
theorem keeps_context {context : Context} {failure : Option (Option Failure)}
    {result : Option WorkResult} (hlive : status.terminal = false ∨ w.status.terminal = false)
    (htasks : ∀ task ∈ context.tasks, task ∈ w.context.tasks)
    (hsame : context.disposition = w.context.disposition ∧
      context.implementation = w.context.implementation ∧
      context.finalizeReturn = w.context.finalizeReturn ∧
      (context.approvalPhase = w.context.approvalPhase ∨ context.approvalPhase = none)) :
    boundsLaw.Keeps w status { context := some context, failure, result } := by
  intro hguarded hadmits
  obtain ⟨hdisposition, himplementation, hreturn', happroval'⟩ := hsame
  have hlive' := hlive.elim (fun hstatus => live_of_admits hstatus hadmits) id
  refine keeps_staged hlive' htasks (fun h => by cases h) ?_ ?_ hguarded hadmits
  · intro hnew
    simp only [Option.getD_some, Context.returns, List.mem_append] at hnew ⊢
    rw [hreturn'] at hnew
    rcases happroval' with heq | hnone
    · rw [heq] at hnew
      exact hnew
    · rw [hnone] at hnew
      exact Or.inr (hnew.resolve_left List.not_mem_nil)
  rintro - ⟨hphase, himpl, hreturn, happroval⟩
  refine ⟨?_, ?_, ?_, ?_⟩
  · simp only [Option.getD_some, Option.getD_none]
    unfold boundedPhase at hphase ⊢
    rw [hdisposition]
    exact hphase
  · simp only [Option.getD_some, himplementation]
    exact himpl
  · simp only [Option.getD_some, hreturn']
    exact hreturn
  · rcases happroval' with heq | hnone
    · simp only [Option.getD_some, heq]
      exact happroval
    · exact Or.inl hnone

end

/-! ### Contracts and new rows -/

section

variable {db : DB} {w : Work} {c : Contract}

theorem head_contract (h : c.identity = w.contract) : w.contract.head? = some c.toContractBody := by
  rw [← h]
  rfl

theorem bounded_contract (h : c.identity = w.contract) : w.Bounded ↔ c.toContractBody.Bounded := by
  constructor
  · rintro ⟨b, hb, hbounded⟩
    rw [head_contract h] at hb
    cases hb
    exact hbounded
  · exact fun hbounded => ⟨_, head_contract h, hbounded⟩

theorem proving_contract (h : c.identity = w.contract) (hw : w.Proving) :
    c.checks = [] ∨ c.checks.any (·.proves) = true := hw _ (head_contract h)

/-- A new work item in a phase that asks nothing of its contract. -/
theorem newWork_guarded {parent : Option String} {phase : Phase} {limit : Nat}
    (hchecks : c.mode ≠ .run → c.checks = [] ∨ c.checks.any (·.proves) = true)
    (hphase : c.mode = .fix → phase = .classify) (hrun : phase = .diagnose → c.mode ≠ .run) :
    (DB.newWork c parent phase limit).Guarded where
  tasks _ h := absurd h List.not_mem_nil
  diagnose := hrun
  returns := List.not_mem_nil
  checks hmode b hb := by
    cases hb
    exact hchecks hmode
  implement hmode himplement := by
    rw [show phase = .implement from himplement] at hphase
    exact absurd (hphase hmode) (by decide)
  accepted _ h := nomatch h
  staged hmode _ := by
    refine ⟨?_, (fun h => by cases h), Or.inl rfl, Or.inl rfl⟩
    rw [show (DB.newWork c parent phase limit).phase = .classify from hphase hmode]
    trivial

/-- A contract is completed: it keeps the scope and the checks it has, and the row fits the new one. -/
theorem allows_bind {bound : Contract} {next : Phase} {context : Context} {operation : Option OperationId}
    (hw : boundsLaw.Reads db w) (hc : c.identity = w.contract)
    (h : w.Guarded → (c.scope ≠ [] → bound.scope = c.scope) →
      (DB.bound bound.identity (some next) context w).Guarded) :
    boundsLaw.Allows db (.bindContract w bound (some next) (some context) operation) := by
  refine RowLaw.allows ?_ ?_ ?_
  · intro record hrecord
    obtain rfl := List.mem_singleton.mp hrecord
    exact hw
  · intro record hrecord hrow hadmits s t hexec
    obtain rfl := List.mem_singleton.mp hrecord
    simp only [Call.exec] at hexec
    obtain ⟨previous, row, mid, hprevious, -, -, -, hchecks, hscope, -⟩ := DB.bindContract_ok hexec
    obtain rfl : previous = c := Contract.identity_injective ((Base.Table.find_key hprevious).trans hc.symm)
    refine ⟨h hrow hscope, fun hbounded => ?_⟩
    obtain ⟨hpaths, hproves⟩ := (bounded_contract hc).mp hbounded
    have hgiven : previous.checks ≠ [] := by
      rintro hnone
      rw [hnone] at hproves
      cases hproves
    refine ⟨bound.toContractBody, rfl, ?_, ?_⟩
    · rw [hscope hpaths]
      exact hpaths
    · rw [hchecks hgiven]
      exact hproves
  · intro _ _ _ _ hadds
    cases hadds

theorem keeps_child (child : String) (waiting : Waiting) : boundsLaw.Keeps w .waiting
    { context := some { w.context with child := some child, waitingFor := some waiting } } :=
  keeps_context (Or.inl rfl) (fun _ h => h) ⟨rfl, rfl, rfl, Or.inl rfl⟩

theorem allows_child {id goal : String} {mode : Mode} {source : Commit} {inputs : Inputs}
    {scope : List Path} {checks : List VerificationSpec} {limit : Nat} {operation : Option OperationId}
    (hw : boundsLaw.Reads db w) (hchecks : mode ≠ .run → checks = [] ∨ checks.any (·.proves) = true) :
    boundsLaw.Allows db (.child w id mode goal source inputs scope checks limit operation) := by
  refine RowLaw.allows ?_ ?_ ?_
  · intro record hrecord
    obtain rfl := List.mem_singleton.mp hrecord
    exact hw
  · intro record hrecord hrow hadmits _ _ _
    obtain rfl := List.mem_singleton.mp hrecord
    exact keeps_child id .child hrow hadmits
  · rintro s row - - ⟨pc, built, -, hbuild, rfl⟩ -
    obtain ⟨-, -, hmode, -, -, -, -, hsame, -⟩ := Contract.build_eq_ok hbuild
    refine newWork_guarded ?_ ?_ ?_
    · rw [hmode, hsame]
      exact hchecks
    · rw [hmode]
      rintro rfl
      rfl
    · cases mode <;> simp [DB.childPhase]

theorem allows_batch {tasks : List (String × Task)} {source : Commit} (hw : boundsLaw.Reads db w)
    (htasks : ∀ item ∈ tasks, item.2 ∈ w.context.tasks) : boundsLaw.Allows db (.batch w tasks source) := by
  refine RowLaw.allows ?_ ?_ ?_
  · intro record hrecord
    obtain rfl := List.mem_singleton.mp hrecord
    exact hw
  · intro record hrecord hrow hadmits _ _ _
    obtain rfl := List.mem_singleton.mp hrecord
    exact keeps_context (Or.inl rfl) (fun _ h => h) ⟨rfl, rfl, rfl, Or.inl rfl⟩ hrow hadmits
  · rintro s row - - ⟨pc, built, id, task, checks, -, hitem, hread, hbuild, rfl⟩ -
    obtain ⟨-, -, hmode, -, -, -, hscope, hsame, -⟩ := Contract.build_eq_ok hbuild
    have hbounded : (DB.taskWork built w.id task).Bounded := by
      obtain ⟨hpaths, hproves⟩ := hw.1.tasks task (htasks _ hitem)
      refine ⟨built.toContractBody, rfl, ?_, ?_⟩
      · rw [hscope]
        exact hpaths
      · rw [hsame]
        exact mapM_proves (fun _ _ => readSpec_proves) hread hproves
    refine ⟨fun _ h => absurd h List.not_mem_nil, fun _ b hb => ?_, (fun h => by cases h), List.not_mem_nil,
      fun _ _ => hbounded, fun _ _ => hbounded, fun _ _ => ⟨hbounded, (fun h => by cases h), Or.inl rfl, Or.inl rfl⟩⟩
    obtain ⟨b', hb', hproves⟩ := hbounded
    obtain rfl := Option.some.inj (hb.symm.trans hb')
    exact Or.inr hproves.2

/-- A new root of the release proof is a run. -/
theorem newRoots (base : DB) : boundsLaw.NewRoots base fun w => w.mode = .run where
  row c hmode limit := newWork_guarded (fun hne => absurd hmode hne) (by simp [hmode]) (by simp)
  fresh _ _ hmode _ _ := hmode
  verify w hmode hguarded hadmits :=
    keeps_staged (live_of_admits rfl hadmits) (fun _ h => h) (by simp) (fun h => h)
      (fun hfix => by simp [hmode] at hfix) hguarded hadmits
  ready _ _ := keeps_same rfl rfl

end

/-! ### One step -/

section

variable {cfg : Config} {o : Observed} {base db : DB} {w : Work} {c : Contract} {p : Program Unit}

theorem safe_done {result : WorkResult} {operation : Option OperationId} {deferred : Option Deferred}
    (hw : boundsLaw.Reads db w) (hbase : boundsLaw.law.since base db) :
    boundsLaw.Safe db (complete w result operation deferred) fun _ _ => True :=
  RowLaw.safe_complete hw hbase (newRoots base) (fun _ => keeps_same rfl rfl) fun _ _ _ => keeps_same rfl rfl

theorem safe_waitUser {operation : OperationId} (hw : boundsLaw.Reads db w) :
    boundsLaw.Safe db (waitUser w operation) fun _ _ => True :=
  RowLaw.safe_move hw (keeps_context (Or.inl rfl) (fun _ h => h) ⟨rfl, rfl, rfl, Or.inl rfl⟩)

/-- A planned task starts with the scope and the checks of the plan. -/
theorem startTask_safe {task : Task} (hw : boundsLaw.Reads db w) (htask : task ∈ w.context.tasks)
    (h : startTask o w task = .ok p) : boundsLaw.Safe db p fun _ _ => True := by
  obtain ⟨checks, hcompiled, rfl⟩ := startTask_ok h
  obtain ⟨hpaths, hproves⟩ := hw.1.tasks task htask
  have hchecks := compileChecks_proves hcompiled hproves
  refine Prog.Safe.bind ((RowLaw.safe_child hw (allows_child hw fun _ => Or.inr hchecks)).mono ?_)
  rintro s - - ⟨pc, built, before, hbuild, -, -, -, hread⟩
  obtain ⟨-, hid, -, -, -, -, hscope, hsame, -⟩ := Contract.build_eq_ok hbuild
  have hnew : (DB.newWork built (some w.id) (DB.childPhase .fix) 15).Bounded := by
    refine ⟨built.toContractBody, rfl, ?_, ?_⟩
    · rw [hscope]
      exact hpaths
    · rw [hsame]
      exact hchecks
  rw [← show (DB.newWork built (some w.id) (DB.childPhase .fix) 15).id = o.fresh.headD "" from hid]
  refine RowLaw.safe_promote hread (fun row _ hlater => ?_) fun row _ => keeps_same rfl rfl
  intro hguarded hadmits
  refine keeps_staged (live_of_admits rfl hadmits) (fun _ h => absurd h List.not_mem_nil) ?_
    (fun h => absurd h List.not_mem_nil) (fun _ _ => ?_) hguarded hadmits
  · split <;> simp
  refine ⟨?_, (fun h => by cases h), Or.inl rfl, Or.inl rfl⟩
  simp only [Option.getD_some]
  split
  · trivial
  · exact hlater hnew

variable (hw : boundsLaw.Reads db w) (hrun : w.status = .running)
include hw hrun

/-- A live fix is in none of the phases of a run. -/
theorem not_fix (hphase : ∀ bounded context, ¬ boundedPhase bounded context w.phase) : w.mode ≠ .fix := by
  intro hfix
  have hlive : w.status.terminal = false := by
    rw [hrun]
    rfl
  exact hphase _ _ (hw.1.staged hfix hlive).phase

theorem safe_moves {status : Status} {phase : Option Phase} {context : Context}
    (h : Moves w status phase context p) (htasks : context.tasks = w.context.tasks)
    (hphase : phase ≠ some .diagnose)
    (hreturns : .diagnose ∈ context.returns → .diagnose ∈ w.context.returns)
    (hstaged : w.mode = .fix → Staged w.Bounded w.phase w.context →
      Staged w.Bounded (phase.getD w.phase) context) :
    boundsLaw.Safe db p fun _ _ => True := by
  obtain ⟨failure, operation, rfl⟩ := h
  have hlive : w.status.terminal = false := by
    rw [hrun]
    rfl
  refine RowLaw.safe_move hw (keeps_staged hlive (fun task htask => ?_) (fun h => absurd h hphase) hreturns hstaged)
  rw [← htasks]
  exact htask

theorem safe_advance {phase : Phase} {context : Context} {operation : Option OperationId}
    (htasks : context.tasks = w.context.tasks) (hphase : phase ≠ .diagnose)
    (hreturns : .diagnose ∈ context.returns → .diagnose ∈ w.context.returns)
    (hstaged : w.mode = .fix → Staged w.Bounded w.phase w.context → Staged w.Bounded phase context) :
    boundsLaw.Safe db (advance w phase context operation) fun _ _ => True :=
  safe_moves hw hrun (advance_moves ..) htasks (fun h => hphase (Option.some.inj h)) hreturns hstaged

theorem document_safe (hc : c.identity = w.contract) (hbase : boundsLaw.law.since base db)
    (hphase : w.phase ∈ [.clarify, .prototype, .design, .plan, .providerResearch, .readme, .research])
    (h : DocumentEnd w c p) : boundsLaw.Safe db p fun _ _ => True := by
  have hmode : w.mode ≠ .fix := by
    refine not_fix hw hrun fun bounded context hfix => ?_
    simp only [List.mem_cons, List.not_mem_nil, or_false] at hphase
    rcases hphase with heq | heq | heq | heq | heq | heq | heq <;> rw [heq] at hfix <;> exact hfix
  have hother : w.phase ≠ .diagnose := by
    intro heq
    rw [heq] at hphase
    revert hphase
    decide
  cases h with
  | @moved _ phase context _ hmoves htracks _ _ _ happroval hreturn hnext =>
      refine safe_moves hw hrun hmoves htracks.tasks ?_ ?_ fun hfix => absurd hfix hmode
      · rintro rfl
        rcases hnext _ rfl with ⟨-, h⟩ | ⟨h, -⟩
        · cases h
        · revert h
          decide
      · simp only [Context.returns, List.mem_append, Option.mem_toList, hreturn]
        rcases happroval with ⟨hsame, -⟩ | ⟨hgate, -⟩
        · rw [hsame]
          exact fun h => h
        · rw [hgate]
          exact Or.imp_left fun h => absurd (Option.some.inj h) hother
  | planned _ hproves htasks =>
      refine RowLaw.safe_last (allows_bind hw hc fun hguarded _ => ?_)
      refine ⟨htasks.bounded, fun _ b hb => ?_, (fun h => by cases h), ?_, fun hfix => absurd hfix hmode,
        fun hfix => absurd hfix hmode, fun hfix => absurd hfix hmode⟩
      · cases hb
        exact Or.inr hproves
      · exact hguarded.returns
  | variant => exact safe_done hw hbase

theorem classify_safe (hc : c.identity = w.contract) (h : ClassifyEnd o w c p) :
    boundsLaw.Safe db p fun _ _ => True := by
  cases h with
  | asks => exact safe_waitUser hw
  | notBug proposal =>
      refine safe_advance hw hrun rfl ?_ (fun h => h) fun _ hstaged => ⟨?_, hstaged.implementation,
        hstaged.finalizeReturn, hstaged.approvalPhase⟩
      · split <;> decide
      · split <;> exact Or.inr rfl
  | iteration => exact RowLaw.safe_last (allows_child hw fun hne => absurd rfl hne)
  | @binds bound context hbound htracks _ _ _ happroval himplementation hreturn =>
      refine RowLaw.safe_last (allows_bind hw hc fun hguarded hscope => ?_)
      -- The bound contract is bounded for a fix: the missing part was given, the other part is kept.
      have hproving : w.mode ≠ .run → bound.checks = [] ∨ bound.checks.any (·.proves) = true := by
        intro hmode
        rcases hbound with ⟨hsame, -, -⟩ | ⟨hproves, -⟩
        · rw [hsame]
          exact proving_contract hc (hguarded.checks hmode)
        · exact Or.inr hproves
      have hbounded : w.mode = .fix → bound.toContractBody.Bounded := by
        intro hfix
        rcases hbound with ⟨hsame, hpaths, hgiven⟩ | ⟨hproves, hpaths⟩
        · refine ⟨hpaths, ?_⟩
          have hold := hproving (by simp [hfix])
          rw [hsame] at hold ⊢
          exact hold.resolve_left hgiven
        · refine ⟨?_, hproves⟩
          by_cases hnone : c.scope = []
          · exact hpaths hnone
          · rw [hscope hnone]
            exact hnone
      have hnew : w.mode = .fix → (DB.bound bound.identity (some .implement) context w).Bounded :=
        fun hfix => ⟨_, rfl, hbounded hfix⟩
      refine ⟨fun task htask => hguarded.tasks task (htracks.tasks ▸ htask), ?_, (fun h => by cases h),
        ?_, fun hfix _ => hnew hfix, fun hfix _ => hnew hfix, fun hfix _ => ?_⟩
      · rintro hmode b hb
        cases hb
        exact hproving hmode
      · intro hback
        exact hguarded.returns (Context.returns_congr happroval hreturn ▸
          (show .diagnose ∈ Context.returns _ from hback))
      · have hlive : w.status.terminal = false := by
          rw [hrun]
          rfl
        have hstaged := hguarded.staged hfix hlive
        refine ⟨hnew hfix, fun _ => hnew hfix, ?_, ?_⟩
        · change context.finalizeReturn = none ∨ context.finalizeReturn = some .artifactVerify
          rw [hreturn]
          exact hstaged.finalizeReturn
        · change context.approvalPhase = none ∨ context.approvalPhase = some .persistence ∧ _
          rw [happroval]
          exact hstaged.approvalPhase.imp_right fun hp => ⟨hp.1, hnew hfix⟩
  | goesOn change hscope hchecks =>
      refine safe_advance hw hrun rfl (by decide) (fun h => h) fun hfix hstaged => ⟨?_, hstaged.implementation,
        hstaged.finalizeReturn, hstaged.approvalPhase⟩
      have hproving := proving_contract hc (hw.1.checks (by simp [hfix]))
      exact (bounded_contract hc).mpr ⟨hscope, hproving.resolve_left hchecks⟩

theorem schedule_safe (hmode : w.mode = .run) (h : ScheduleEnd cfg o w p) :
    boundsLaw.Safe db p fun _ _ => True := by
  cases h with
  | done =>
      exact safe_advance hw hrun rfl (by decide) (fun h => h) fun hfix => by simp [hmode] at hfix
  | limited => exact RowLaw.safe_move hw (keeps_context (Or.inl rfl) (fun _ h => h) ⟨rfl, rfl, rfl, Or.inl rfl⟩)
  | batch => exact RowLaw.safe_last (allows_batch hw fun item hitem => readyTasks_mem (Work.batch_mem hitem))
  | starts _ htask hstart => exact startTask_safe hw (readyTasks_mem htask) hstart

/-- A delegated fix takes over a contract that has a scope. -/
theorem diagnose_safe (hc : c.identity = w.contract) (hphase : w.phase = .diagnose)
    (hholds : boundsLaw.law.holds db)
    (hdelegates : ∀ proposal, o.reply = .ok proposal → proposal.delegatesFix = true → c.checks ≠ [] → c.scope ≠ [])
    (h : DiagnoseEnd o db w c p) : boundsLaw.Safe db p fun _ _ => True := by
  have hmode : w.mode ≠ .fix := not_fix hw hrun fun _ _ hfix => by
    rw [hphase] at hfix
    exact hfix
  cases h with
  | asks => exact safe_waitUser hw
  | resumes hfind =>
      have hchild := RowLaw.reads_of_find hholds hfind
      refine Prog.Safe.bind ((RowLaw.safe_move hchild (keeps_same rfl rfl)).mono fun s _ hs _ => ?_)
      exact RowLaw.safe_move (hw.later hs) (keeps_child _ _)
  | @fixes proposal hreply haction =>
      have hproving := proving_contract hc (hw.1.checks (hw.1.diagnose hphase))
      refine Prog.Safe.bind ((RowLaw.safe_child hw (allows_child hw fun _ => hproving)).mono ?_)
      rintro s - - ⟨pc, built, before, hbuild, -, -, -, hread⟩
      obtain ⟨-, hid, -, -, -, -, hscope, hsame, -⟩ := Contract.build_eq_ok hbuild
      split
      · next hgiven =>
          have hnew : (DB.newWork built (some w.id) (DB.childPhase .fix) 15).Bounded := by
            refine ⟨built.toContractBody, rfl, ?_, ?_⟩
            · rw [hscope]
              exact hdelegates proposal hreply haction hgiven
            · rw [hsame]
              exact hproving.resolve_left hgiven
          rw [← show (DB.newWork built (some w.id) (DB.childPhase .fix) 15).id = o.fresh.headD "" from hid]
          refine RowLaw.safe_promote hread (fun row _ hlater => ?_) fun row _ => keeps_same rfl rfl
          intro hguarded hadmits
          refine keeps_staged (live_of_admits rfl hadmits) (fun _ h => h) (by simp) (fun h => h)
            (fun _ hstaged => ?_) hguarded hadmits
          exact ⟨hlater hnew, hstaged.implementation, hstaged.finalizeReturn, hstaged.approvalPhase⟩
      · trivial
  | runs => exact RowLaw.safe_last (allows_child hw fun hne => absurd rfl hne)
  | accepts =>
      exact safe_advance hw hrun rfl (by decide) (fun h => h) fun hfix => absurd hfix hmode

theorem review_safe (hbase : boundsLaw.law.since base db)
    (hphase : w.phase ∈ [.review, .visualJudge, .acceptanceReview]) (h : ReviewEnd o w c p) :
    boundsLaw.Safe db p fun _ _ => True := by
  cases h with
  | finalizes proposal hreview =>
      refine safe_advance hw hrun rfl (by decide) (fun h => h) fun _ hstaged => ⟨?_, hstaged.implementation,
        hstaged.finalizeReturn, hstaged.approvalPhase⟩
      have hreviewed := hstaged.phase
      rw [hreview] at hreviewed
      exact hreviewed
  | notBug => exact safe_done hw hbase
  | judged proposal _ hjudge =>
      refine safe_advance hw hrun rfl (by decide) (fun h => h) fun _ hstaged => ?_
      have hjudged := hstaged.phase
      rw [hjudge] at hjudged
      exact hjudged.elim
  | accepted proposal =>
      exact safe_advance hw hrun rfl (by decide) (fun h => h) fun _ hstaged => ⟨trivial, hstaged.implementation,
        hstaged.finalizeReturn, hstaged.approvalPhase⟩
  | reviewed proposal _ hother =>
      refine safe_advance hw hrun rfl (by decide) (fun h => h) fun _ hstaged => ⟨?_, hstaged.implementation,
        hstaged.finalizeReturn, hstaged.approvalPhase⟩
      have hreviewed := hstaged.phase
      simp only [List.mem_cons, List.not_mem_nil, or_false] at hphase
      rcases hphase with heq | heq | heq
      · rw [heq] at hreviewed
        exact hreviewed
      · rw [heq] at hreviewed
        exact hreviewed.elim
      · exact absurd heq hother

theorem artifact_safe (hphase : w.phase = .artifactVerify) (h : ArtifactEnd o w c p) :
    boundsLaw.Safe db p fun _ _ => True := by
  cases h with
  | nothing | checked =>
      exact safe_advance hw hrun rfl (by decide) (fun h => h) fun _ hstaged => ⟨trivial, hstaged.implementation,
        hstaged.finalizeReturn, hstaged.approvalPhase⟩
  | corrects =>
      refine safe_advance hw hrun rfl (by decide) (by simp +contextual [Context.returns]) fun _ hstaged => ⟨?_, hstaged.implementation,
        Or.inr rfl, hstaged.approvalPhase⟩
      have hverified := hstaged.phase
      rw [hphase] at hverified
      exact hverified

/-- A step keeps the invariant, unless a diagnosis delegates a contract with checks and no scope. -/
theorem step_safe (hc : c.identity = w.contract) (hbase : boundsLaw.law.since base db)
    (hholds : boundsLaw.law.holds db)
    (hdelegates : w.phase = .diagnose → ∀ proposal, o.reply = .ok proposal → proposal.delegatesFix = true →
      c.checks ≠ [] → c.scope ≠ [])
    (h : w.step cfg o db c = .ok p) : boundsLaw.Safe db p fun _ _ => True := by
  cases step_ok h with
  | document hphase hend => exact document_safe hw hrun hc hbase hphase hend
  | classify hphase hend => exact classify_safe hw hrun hc hend
  | schedule hphase hmode hend => exact schedule_safe hw hrun hmode hend
  | implement hphase hmode hend =>
      obtain ⟨proposal, candidate, manifest, -, rfl⟩ := stepImplement_ok hend
      refine safe_advance hw hrun rfl (by split <;> decide) (fun h => h) fun _ hstaged => ?_
      have hbounded : w.Bounded := by
        have himplement := hstaged.phase
        rw [hphase] at himplement
        exact himplement
      refine ⟨?_, fun _ => hbounded, hstaged.finalizeReturn, hstaged.approvalPhase⟩
      split
      · exact hbounded
      · exact Or.inl hbounded
  | persistence hphase hend =>
      have hbounded : ∀ {context}, Staged w.Bounded w.phase context → w.Bounded := by
        intro context hstaged
        have hpersistence := hstaged.phase
        rw [hphase] at hpersistence
        exact hpersistence
      rcases stepPersistence_ok hend with rfl | ⟨manifest, rfl⟩
      · exact safe_advance hw hrun rfl (by decide) (fun h => h) fun _ hstaged => ⟨Or.inl (hbounded hstaged),
          hstaged.implementation, hstaged.finalizeReturn, hstaged.approvalPhase⟩
      · have hmoves : Moves w .waiting none { w.context with
            waitingFor := some .approval, approval := some .persistenceReset,
            approvalPhase := some .persistence, approvalFingerprint := some manifest }
            (one (.transition w .waiting { context := some { w.context with
              waitingFor := some .approval, approval := some .persistenceReset,
              approvalPhase := some .persistence, approvalFingerprint := some manifest } } none [])) :=
          ⟨_, _, rfl⟩
        refine safe_moves hw hrun hmoves rfl (fun h => by cases h) (by simp +contextual [Context.returns]) fun _ hstaged => ?_
        refine ⟨?_, hstaged.implementation, hstaged.finalizeReturn, Or.inr ⟨rfl, hbounded hstaged⟩⟩
        rw [Option.getD_none, hphase]
        exact hbounded hstaged
  | verify hphase hend =>
      obtain ⟨report, -, ⟨phase, hmem, rfl⟩ | ⟨-, rfl⟩⟩ := stepVerify_ok hend
      · refine safe_advance hw hrun rfl ?_ (fun h => h) fun hfix hstaged => ⟨?_, hstaged.implementation,
          hstaged.finalizeReturn, hstaged.approvalPhase⟩
        · rcases hmem with rfl | rfl | ⟨-, rfl⟩ <;> decide
        · have hverified := hstaged.phase
          rw [hphase] at hverified
          rcases hmem with rfl | rfl | ⟨hmode, -⟩
          · exact hverified
          · exact hverified
          · simp [hmode] at hfix
      · exact safe_done hw hbase
  | finalize hphase hend =>
      obtain ⟨report, candidate, -, -, -, -, rfl⟩ := stepFinalize_ok hend
      refine safe_advance hw hrun rfl ?_ (fun h => h) fun _ hstaged => ⟨?_, hstaged.implementation,
        hstaged.finalizeReturn, hstaged.approvalPhase⟩
      · intro hback
        refine hw.1.returns ?_
        cases hreturn : w.context.finalizeReturn with
        | none => simp [hreturn] at hback
        | some phase =>
            rw [hreturn, Option.getD_some] at hback
            simp [Context.returns, hreturn, hback]
      · have hverified := hstaged.phase
        rw [hphase] at hverified
        rcases hstaged.finalizeReturn with hnone | hback
        · rw [hnone]
          exact hverified
        · rw [hback]
          exact hverified
  | review hphase hend => exact review_safe hw hrun hbase hphase hend
  | artifactVerify hphase hend => exact artifact_safe hw hrun hphase hend
  | diagnose hphase hend => exact diagnose_safe hw hrun hc hphase hholds (hdelegates hphase) hend
  | acceptance hphase hend =>
      obtain ⟨proposal, report, -, rfl⟩ := stepAcceptance_ok hend
      refine Prog.Safe.bind ((RowLaw.safe_last (RowLaw.allows_ledger rfl)).mono fun s _ hs _ => ?_)
      exact safe_advance (hw.later hs) hrun rfl (by decide) (fun h => h) fun _ hstaged => ⟨trivial,
        hstaged.implementation, hstaged.finalizeReturn, hstaged.approvalPhase⟩
  | deliver hphase hend =>
      cases hend with
      | attested | handed | delivered => exact safe_done hw hbase
      | asks hmode =>
          refine RowLaw.safe_move hw (keeps_staged ?_ (fun _ h => h) (fun h => by cases h)
            (by simp +contextual [Context.returns]) fun hfix => by simp [hmode] at hfix)
          rw [hrun]
          rfl

end

/-! ### The other moves -/

section

variable {cfg : Config} {base db : DB} {w : Work}

theorem keeps_resumes (w : Work) (status : Status) (changes : Changes) (h : Resumes w status changes) :
    boundsLaw.Keeps w status changes := by
  cases h with
  | recovered | retried | stopped | waits => exact keeps_same rfl rfl
  | provider name hlive => exact keeps_context (Or.inr hlive) (fun _ h => h) ⟨rfl, rfl, rfl, Or.inl rfl⟩
  | limit => exact keeps_context (Or.inl rfl) (fun _ h => h) ⟨rfl, rfl, rfl, Or.inl rfl⟩

theorem consumeAll_safe (ops : List Operation) :
    boundsLaw.Safe db (ops.forM fun op => one (.consume op.id)) fun _ _ => True :=
  Prog.safe_forM (P := fun _ => True) trivial fun _ _ _ _ _ =>
    RowLaw.safe_last (RowLaw.allows_ledger rfl)

/-- An error keeps the invariant, unless a fix that was no bug is repaired with an unbounded contract. -/
theorem onError_safe {provider : Option String} {allowed : Bool} {e : ControlError}
    (hw : boundsLaw.Reads db w)
    (hrepaired : w.repaired e allowed = true → w.context.disposition = some "not_bug" → w.Bounded) :
    boundsLaw.Safe db (onError cfg provider allowed db w e) fun _ _ => True := by
  unfold onError
  simp only
  split
  · refine Prog.Safe.bind ((consumeAll_safe _).mono fun s _ hs _ => ?_)
    exact RowLaw.safe_move (hw.later hs) (keeps_context (Or.inl rfl) (fun _ h => h) ⟨rfl, rfl, rfl, Or.inl rfl⟩)
  · split
    · next hrepair =>
        refine Prog.Safe.bind ((consumeAll_safe _).mono fun s _ hs _ => ?_)
        refine RowLaw.safe_move (hw.later hs) fun hguarded hadmits => ?_
        refine keeps_staged (live_of_admits rfl hadmits) (fun _ h => h) (fun h => by cases h) (fun h => h)
          (fun _ hstaged => ?_) hguarded hadmits
        have hbounded : w.Bounded := by
          have hphase := hrepair
          simp only [Work.repaired, Bool.and_eq_true, Bool.or_eq_true, beq_iff_eq] at hphase
          have hold := hstaged.phase
          rcases hphase.1.2 with heq | heq <;> rw [heq] at hold <;>
            exact hold.elim id (hrepaired hrepair)
        exact ⟨hbounded, hstaged.implementation, hstaged.finalizeReturn, hstaged.approvalPhase⟩
    · split
      · exact RowLaw.safe_move hw (keeps_context (Or.inl rfl) (fun _ h => h) ⟨rfl, rfl, rfl, Or.inl rfl⟩)
      · exact RowLaw.safe_move hw (keeps_same rfl rfl)

theorem childDone_safe {candidate : Except ControlError Candidate} {child : Work}
    (hw : boundsLaw.Reads db w) (hwaiting : w.status = .waiting) :
    boundsLaw.Safe db (childDone candidate w child) fun _ _ => True := by
  unfold childDone
  split
  · refine Prog.Safe.bind (Prog.safe_ofExcept fun candidate _ => ?_)
    refine Prog.Safe.bind (Prog.safe_ofExcept fun done _ => ?_)
    refine RowLaw.safe_move hw (keeps_staged ?_ (fun _ h => h) ?_ (fun h => h) fun _ hstaged => ?_)
    · rw [hwaiting]
      rfl
    · intro hphase
      split at hphase
      · cases hphase
      · exact Option.some.inj hphase
    · refine ⟨?_, hstaged.implementation, hstaged.finalizeReturn, hstaged.approvalPhase⟩
      rw [Option.getD_some]
      by_cases haccept : w.mode = .collab ∨ w.mode = .fix ∧ w.phase = .classify
      · rw [if_pos haccept]
        trivial
      · rw [if_neg haccept]
        exact hstaged.phase
  · exact RowLaw.safe_move hw (keeps_same rfl rfl)
  · trivial

theorem childrenDone_safe {candidate : Except ControlError Candidate} {children : List Work}
    (hw : boundsLaw.Reads db w) : boundsLaw.Safe db (childrenDone candidate w children) fun _ _ => True := by
  unfold childrenDone
  split
  · refine Prog.Safe.bind (Prog.safe_ofExcept fun tasks _ => ?_)
    refine Prog.Safe.bind (Prog.safe_ofExcept fun candidate _ => ?_)
    exact RowLaw.safe_move hw (keeps_context (Or.inl rfl) (fun _ h => h) ⟨rfl, rfl, rfl, Or.inl rfl⟩)
  · split
    · exact RowLaw.safe_move hw (keeps_same rfl rfl)
    · trivial

theorem approve_safe {hashes : Tree} {chosen : Option (List Path × Candidate)}
    (hw : boundsLaw.Reads db w) : boundsLaw.Safe db (approve w hashes chosen) fun _ _ => True := by
  unfold approve
  split
  · trivial
  · split
    · trivial
    · exact RowLaw.safe_move hw (keeps_context (Or.inl rfl) (fun _ h => h) ⟨rfl, rfl, rfl, Or.inl rfl⟩)

theorem answer_safe {rejected pending : Bool} (hw : boundsLaw.Reads db w) :
    boundsLaw.Safe db (answer w rejected pending) fun _ _ => True := by
  unfold answer
  split
  · trivial
  · next hopen =>
      have hlive : w.status.terminal = false := by
        rw [not_not.mp fun hne => hopen (Or.inl hne)]
        rfl
      refine RowLaw.safe_move hw fun hguarded hadmits => ?_
      cases rejected with
      | false =>
          exact keeps_staged hlive (fun _ h => h) (fun h => Option.some.inj h) (fun h => h)
            (fun _ hstaged => ⟨hstaged.phase, hstaged.implementation, hstaged.finalizeReturn,
              hstaged.approvalPhase⟩) hguarded hadmits
      | true =>
          refine keeps_staged hlive (fun _ h => h) ?_ ?_ (fun _ hstaged => ?_) hguarded hadmits
          · intro hphase
            cases happroval : w.context.approvalPhase with
            | none =>
                simp only [happroval, Option.getD_none, if_true, Option.some.injEq] at hphase
                exact hphase
            | some phase =>
                simp only [happroval, Option.getD_some, if_true, Option.some.injEq] at hphase
                exact absurd (by simp [Context.returns, happroval, hphase]) hguarded.returns
          · exact fun h => List.mem_append_right _ h
          · refine ⟨?_, hstaged.implementation, hstaged.finalizeReturn, Or.inl rfl⟩
            rcases hstaged.approvalPhase with hnone | ⟨hback, hbounded⟩
            · simp only [hnone, if_true, Option.getD_none, Option.getD_some]
              exact hstaged.phase
            · simp only [hback, if_true, Option.getD_some]
              exact hbounded

theorem generate_safe {id goal variant : String} {source : Commit} {scope : Path}
    (hw : boundsLaw.Reads db w) :
    boundsLaw.Safe db (generate w id goal variant source scope) fun _ _ => True := by
  unfold generate
  split
  · trivial
  · refine RowLaw.safe_last (RowLaw.allows ?_ (fun _ _ _ hadmits => absurd hadmits fun h => h) ?_)
    · intro record hrecord
      obtain rfl := List.mem_singleton.mp hrecord
      exact hw
    · rintro s row - - ⟨pc, built, -, hbuild, rfl⟩ -
      have hmode : built.mode = .run := (Contract.build_eq_ok hbuild).2.2.1
      exact newWork_guarded (fun hne => absurd hmode hne) (by simp [hmode]) (by simp)

/-- Several work items, each of which only changes its status. -/
theorem all_safe {nodes : List Work} {status : Status} {failure : Option (Option Failure)}
    (h : ∀ node ∈ nodes, boundsLaw.Reads db node) :
    boundsLaw.Safe db (nodes.forM fun node => one (.transition node status { failure } none []))
      fun _ _ => True :=
  Prog.safe_forM (P := fun _ => True) trivial fun node hnode _ hs _ =>
    RowLaw.safe_move ((h node hnode).later hs) (keeps_same rfl rfl)

theorem archive_safe (hw : boundsLaw.Reads db w) (hterminal : w.status.terminal = true) :
    boundsLaw.Safe db (one (.transition w w.status { context := some { archived := true } } none []))
      fun _ _ => True := by
  refine RowLaw.safe_move hw fun hguarded _ => ⟨⟨fun _ h => absurd h List.not_mem_nil, hguarded.checks,
    hguarded.diagnose, List.not_mem_nil, hguarded.implement, (fun _ h => nomatch h), fun _ hlive => ?_⟩, id⟩
  rw [show (DB.changed w.status _ w).status = w.status from rfl, hterminal] at hlive
  cases hlive

end

/-! ### Runs -/

/-- The two ways into `implement` past the classification, as they have to be for the contract to be
bounded. A contract with checks that a diagnosis delegates to a fix has a scope; a fix that was found to be
no bug is repaired only under a bounded contract. -/
def Bounding (s : Engine) : Turn Move → Engine → Prop
  | .begin _ (.step id o), _ => ∀ w c proposal, s.now.works.find id = some w →
      s.now.contract w.contract = .ok c → w.phase = .diagnose → o.reply = .ok proposal →
      proposal.delegatesFix = true → c.checks ≠ [] → c.scope ≠ []
  | .begin i (.handle _ allowed), _ => ∀ w e latest, s.threads i = some ⟨some w, .fail e⟩ →
      s.now.works.find w.id = some latest → latest.repaired e allowed = true →
      latest.context.disposition = some "not_bug" → latest.Bounded
  | _, _ => True

section

variable {cfg : Config} {s t : Engine}

/-- The thread of a move that is about a work item. -/
theorem onWork_safe {move : Move} {db : DB} {w : Work} {id : String} (hholds : boundsLaw.law.holds db)
    (hbase : boundsLaw.law.since .empty db) (hfind : db.works.find id = some w)
    (hdelegates : ∀ o, move = .step id o → ∀ c proposal, db.contract w.contract = .ok c →
      w.phase = .diagnose → o.reply = .ok proposal → proposal.delegatesFix = true → c.checks ≠ [] → c.scope ≠ [])
    (hsubject : move.subject = some id) : boundsLaw.Safe db (move.onWork cfg db w) fun _ _ => True := by
  have hw := RowLaw.reads_of_find hholds hfind
  cases move with
  | run _ =>
      simp only [Move.onWork]
      split
      · exact RowLaw.safe_move hw (keeps_same rfl rfl)
      · trivial
  | step _ o =>
      cases hsubject
      simp only [Move.onWork]
      split
      · next hrun =>
          split
          · trivial
          · next c hcontract =>
              split
              · trivial
              · next program hstep =>
                  exact step_safe hw hrun (DB.contract_identity hcontract) hbase hholds
                    (fun hphase proposal => hdelegates o rfl c proposal hcontract hphase) hstep
      · trivial
  | child _ candidate =>
      simp only [Move.onWork]
      split
      · next hwaiting _ _ => exact childDone_safe hw hwaiting
      · trivial
  | children _ candidate =>
      simp only [Move.onWork]
      split
      · exact childrenDone_safe hw
      · trivial
  | approve => exact approve_safe hw
  | answer => exact answer_safe hw
  | generate => exact generate_safe hw
  | present _ candidate =>
      simp only [Move.onWork]
      split
      · exact RowLaw.safe_move hw (keeps_context (Or.inl rfl) (fun _ h => h) ⟨rfl, rfl, rfl, Or.inl rfl⟩)
      · trivial
  | cancel _ =>
      refine Prog.Safe.bind fun u _ hu => ?_
      refine all_safe fun node hnode => ?_
      exact RowLaw.reads_of_find hu (Table.find_of_mem (List.mem_of_mem_filter (List.mem_reverse.mp hnode)))
  | archive _ =>
      simp only [Move.onWork]
      split
      · next hterminal => exact archive_safe hw hterminal
      · trivial
  | restart _ =>
      simp only [Move.onWork]
      split
      · next hblocked =>
          refine RowLaw.safe_move hw (keeps_context (Or.inr ?_) (fun _ h => h) ⟨rfl, rfl, rfl, Or.inl rfl⟩)
          rw [hblocked]
          rfl
      · trivial
  | reconciled _ =>
      intro u _ hu
      beta_reduce
      split
      · trivial
      · refine all_safe fun node hnode => ?_
        exact RowLaw.reads_of_find hu (Table.find_of_mem (List.mem_of_mem_filter hnode))
  | fault _ error =>
      simp only [Move.onWork]
      split
      · trivial
      · exact RowLaw.safe_move hw (keeps_same rfl rfl)
  | start | resume | handle | ledger | verify => cases hsubject

theorem commandChecks_proves {command : String} {checks : List VerificationSpec}
    (h : commandChecks command = .ok checks) : checks = [] ∨ checks.any (·.proves) = true := by
  unfold commandChecks at h
  split at h
  · cases h
    exact Or.inl rfl
  · cases hread : DB.readSpec { command } with
    | error e =>
        rw [hread] at h
        cases h
    | ok spec =>
        rw [hread] at h
        cases h
        have hproves := readSpec_proves hread rfl
        exact Or.inr (by simp [hproves])

theorem start_safe {workflow id goal : String} {mode : Mode} {source : Commit}
    {authorization : Authorization} {inputs : Inputs} {checks : List VerificationSpec}
    {maxCalls : Option Nat} {nodeLimit : Nat} {db : DB}
    (hchecks : checks = [] ∨ checks.any (·.proves) = true) :
    boundsLaw.Safe db (one (.createWorkflow workflow id mode goal source authorization inputs [] checks
      maxCalls nodeLimit)) fun _ _ => True := by
  refine (RowLaw.safe_root fun c hbuild => ?_).mono fun _ _ _ _ => trivial
  obtain ⟨-, -, hmode, -, -, -, -, hsame, -⟩ := Contract.build_eq_ok hbuild
  refine newWork_guarded (fun _ => hsame ▸ hchecks) ?_ ?_
  · rw [hmode]
    rintro rfl
    rfl
  · rw [hmode]
    cases mode <;> simp [DB.rootPhase]

theorem begin_safe {i : Nat} {move : Move} (hC : Bounding s (.begin i move) t)
    (hholds : boundsLaw.law.holds s.now) (hbase : boundsLaw.law.since .empty s.now) :
    ∀ new ∈ move.begin cfg s.now (s.threads i), (∀ old ∈ s.threads i,
      boundsLaw.Safe s.now old.program fun _ _ => True) →
      boundsLaw.Safe s.now new.program fun _ _ => True := by
  intro new hnew hold
  cases hsubject : move.subject with
  | some id =>
      have hthread : ∃ w, s.now.works.find id = some w ∧ new.program = move.onWork cfg s.now w := by
        cases hfind : s.now.works.find id with
        | none => cases move <;> simp_all [Move.begin, Move.subject]
        | some w =>
            refine ⟨w, rfl, ?_⟩
            cases move <;> simp_all [Move.begin, Move.subject] <;> rw [← hnew]
      obtain ⟨w, hfind, hprogram⟩ := hthread
      rw [hprogram]
      refine onWork_safe hholds hbase hfind (fun o heq c proposal => ?_) hsubject
      subst heq
      exact hC w c proposal hfind
  | none =>
      cases move with
      | start workflow id mode goal source authorization inputs command maxCalls nodeLimit =>
          simp only [Move.begin] at hnew
          split at hnew
          · cases hnew
          · next checks hchecks =>
              cases hnew
              exact start_safe (commandChecks_proves hchecks)
      | resume id provider recovered =>
          cases hnew
          exact RowLaw.safe_resume keeps_resumes id provider recovered
      | verify =>
          cases hnew
          exact RowLaw.safe_releaseRoot hbase (newRoots .empty)
      | ledger call =>
          simp only [Move.begin] at hnew
          split at hnew
          · next hledger =>
              cases hnew
              exact RowLaw.safe_last (RowLaw.allows_ledger hledger)
          · cases hnew
      | handle provider allowed =>
          simp only [Move.begin] at hnew
          split at hnew
          · next w e hthread =>
              split at hnew
              · next latest hlatest =>
                  cases hnew
                  exact onError_safe (RowLaw.reads_of_find hholds hlatest) (hC w e latest hthread hlatest)
              · cases hnew
          · exact hold new hnew
      | _ => cases hsubject

end

/-- In every run in which a diagnosis delegates checks only with a scope, and a fix that was no bug is
repaired only under a bounded contract: a fix that is in `implement`, or has an accepted implementation,
has a contract with a scope and a required check of behavior. -/
theorem implementation_bounded (cfg : Config) {trace : List (Taken Engine (Turn Move))} {s : Engine}
    (h : (engineSystem cfg .empty).Run trace s) (hC : System.Meets Bounding trace) :
    ∀ w ∈ s.now.works.rows, w.mode = .fix →
      w.phase = .implement ∨ w.context.implementation.isSome = true →
      ∃ b, w.contract.head? = some b ∧ b.scope ≠ [] ∧
        ∃ spec ∈ b.checks, spec.purpose = .behavior ∧ spec.required = true := by
  have hkept := Pool.keeps (G := boundsLaw.guard) (T := fun _ _ => True) (C := Bounding)
    (fun _ hw => absurd hw List.not_mem_nil) (fun _ _ _ _ h => h)
    (fun s i move t hturn hholds hbase hold new hnew =>
      ⟨trivial, begin_safe hturn hholds hbase new hnew fun old hmem => (hold old hmem).2⟩) h hC
  intro w hw hmode hphase
  have hguarded := hkept.1 w hw
  have hbounded : w.Bounded := hphase.elim (hguarded.implement hmode) (hguarded.accepted hmode)
  obtain ⟨b, hb, hscope, hproves⟩ := hbounded
  obtain ⟨spec, hspec, hproof⟩ := List.any_eq_true.mp hproves
  simp only [VerificationSpec.proves, Bool.and_eq_true, beq_iff_eq] at hproof
  exact ⟨b, hb, hscope, spec, hspec, hproof⟩

/-- A fix is classified: it binds the paths of the reply, with the check of the command. -/
def classifyingTurns : List (Turn Move) :=
  commandTurns .fix { decision := "fix", paths := [["src", "a.py"]] } ++ [.go 0]

theorem classifyingTurns_bounding : System.Meets Bounding (engineTaken classifyingTurns) := by
  intro e he
  have hlabel := Pool.mem_taken _ _ he
  have hall : ∀ turn ∈ classifyingTurns, Bounding e.before turn e.after := by
    simp only [classifyingTurns, commandTurns, List.cons_append, List.nil_append, List.forall_mem_cons]
    refine ⟨trivial, trivial, trivial, trivial, trivial, trivial, trivial, trivial, ?_, trivial,
      fun _ h => absurd h List.not_mem_nil⟩
    rintro w c proposal - - - ⟨⟩ hfix
    exact absurd hfix (by decide)
  exact hall e.label hlabel

theorem implementation_bounded_classified :
    (∃ w ∈ (engineAfter classifyingTurns).now.works.rows, w.mode = .fix ∧ w.phase = .implement) ∧
      ∀ w ∈ (engineAfter classifyingTurns).now.works.rows, w.mode = .fix →
        w.phase = .implement ∨ w.context.implementation.isSome = true →
        ∃ b, w.contract.head? = some b ∧ b.scope ≠ [] ∧
          ∃ spec ∈ b.checks, spec.purpose = .behavior ∧ spec.required = true :=
  ⟨by decide, implementation_bounded {} (engineAfter_run classifyingTurns) classifyingTurns_bounding⟩

/-- A collab with `--verify-command` delegates a fix: the child is added, read, and moved on twice. -/
def delegatingTurns : List (Turn Move) :=
  commandTurns .collab { action := "fix", summary := "repair" } ++ List.replicate 5 (.go 0)

theorem delegated_fix_unbounded :
    ¬ ∀ (cfg : Config) (trace : List (Taken Engine (Turn Move))) (s : Engine),
      (engineSystem cfg .empty).Run trace s → ∀ w ∈ s.now.works.rows, w.mode = .fix → w.phase = .implement →
        ∃ b, w.contract.head? = some b ∧ b.scope ≠ [] ∧
          ∃ spec ∈ b.checks, spec.purpose = .behavior ∧ spec.required = true := by
  intro hclaim
  have hrow : ∃ w ∈ (engineAfter delegatingTurns).now.works.rows, w.mode = .fix ∧ w.phase = .implement ∧
      w.contract.head?.map (·.scope) = some [] := by decide
  obtain ⟨w, hw, hmode, hphase, hscope⟩ := hrow
  obtain ⟨b, hb, hgiven, -⟩ := hclaim {} _ _ (engineAfter_run delegatingTurns) w hw hmode hphase
  rw [hb] at hscope
  exact hgiven (Option.some.inj hscope)

end AutoAgents
