import AutoAgents.WatchStore

/-! The repair loop of the maintenance supervisor: what a candidate is verified with, and the counter
that stops successive corrections without verified improvement. -/

namespace AutoAgents.Watch

open Base Base.Table

/-! ### The verification of a candidate -/

inductive Status
  | passed
  | failed
  | unknown
  | environment
  | notRun
  deriving DecidableEq, Repr

structure Check where
  id : String
  status : Status
  deriving DecidableEq, Repr

/-- What the sandbox returns for one command. -/
structure SandboxResult where
  ok : Bool
  returncode : Int
  reason : String := ""
  deriving DecidableEq, Repr

/-- The last row of the recovery log that says whether the blocked step cleared. -/
structure Report where
  ok : Bool
  externalCalls : Int
  category : String
  deriving DecidableEq, Repr

/-- One run of a regression file, with the test cases of its report that were not skipped. -/
structure TestRun where
  result : SandboxResult
  executed : Nat
  deriving DecidableEq, Repr

/-- The answer of the independent review; the verdict is `none` where its text is no JSON object. -/
structure Review where
  ok : Bool
  verdict : Option Bool
  deriving DecidableEq, Repr

/-- A candidate, as its verification sees it. The repair model chooses the files `added` under
`tests/repair`. -/
structure Candidate where
  forbidden : List String := []
  recovery : SandboxResult
  report : Option Report
  added : List String
  tests : String → TestRun
  review : Review

/-- The list of the original regression files comes from the admission commit. -/
structure Verifier where
  testFiles : List String

/-- The status of `original-boundary`. -/
def recoverStatus (result : SandboxResult) (value : Option Report) : Status :=
  match value with
  | none => .unknown
  | some report =>
    if result.reason ≠ "" ∨ report.category ∈ ["state", "environment", "reconciliation"] then .unknown
    else if result.ok = true ∧ report.ok = true ∧ report.externalCalls = 0 then .passed
    else .failed

def TestRun.status (run : TestRun) : Status :=
  if run.result.reason ≠ "" ∨ run.result.returncode ∈ [125, 126, 127, 137] ∨
      run.result.ok = true ∧ run.executed = 0 then .environment
  else if run.result.ok = true ∧ run.executed ≠ 0 then .passed
  else .failed

def regressionId (name : String) : String := "regression:" ++ name

namespace Verifier

def recover (c : Candidate) : Check := ⟨"original-boundary", recoverStatus c.recovery c.report⟩

/-- The original files, and then those that the candidate adds. -/
def regression (v : Verifier) (c : Candidate) : List Check :=
  (v.testFiles ++ c.added).map fun name => ⟨regressionId name, (c.tests name).status⟩

/-- `verify`: whether everything passed, and the checks. -/
def verify (v : Verifier) (c : Candidate) : Bool × List Check :=
  if c.forbidden ≠ [] then (false, [⟨"scope", .failed⟩])
  else if (recover c).status ≠ .passed then (false, [recover c])
  else
    let checks := recover c :: v.regression c
    (checks.all fun row => row.status == .passed, checks)

/-- One turn of the loop of `Runner.maintain` up to the call of `progress`: the independent review
is asked only about what passed. -/
def verification (v : Verifier) (c : Candidate) : Except String (Bool × List Check) :=
  if c.forbidden ≠ [] then .error "Candidate changed protected paths: "
  else if (v.verify c).1 = true then
    match c.review.verdict with
    | none => .error "Independent review returned an invalid verdict"
    | some verdict =>
      .ok (c.review.ok && verdict,
        (v.verify c).2 ++ [⟨"independent-review", if (c.review.ok && verdict) = true then .passed else .failed⟩])
  else .ok (v.verify c)

/-- The checks fixed at admission. -/
def fixed (v : Verifier) : List String :=
  "original-boundary" :: "independent-review" :: v.testFiles.map regressionId

end Verifier

def passedIds (checks : List Check) : List String :=
  (checks.filter fun row => row.status == .passed).map Check.id

theorem mem_passedIds {checks : List Check} {id : String} :
    id ∈ passedIds checks ↔ ⟨id, .passed⟩ ∈ checks := by
  simp only [passedIds, List.mem_map, List.mem_filter, beq_iff_eq]
  constructor
  · rintro ⟨⟨_, _⟩, ⟨hmem, rfl⟩, rfl⟩
    exact hmem
  · intro h
    exact ⟨_, ⟨h, rfl⟩, rfl⟩

/-! ### The counter -/

/-- `sorted` of a set. -/
def sortedSet (names : List String) : List String := names.dedup.insertionSort (· ≤ ·)

/-- `best < passed`, of sets. -/
def Improves (best passed : List String) : Prop := best ⊆ passed ∧ ¬ passed ⊆ best

instance (best passed : List String) : Decidable (Improves best passed) :=
  inferInstanceAs (Decidable ((∀ a ∈ best, a ∈ passed) ∧ ¬ ∀ a ∈ passed, a ∈ best))

theorem improves_iff {best passed : List String} :
    Improves best passed ↔ best ⊆ passed ∧ ∃ id ∈ passed, id ∉ best := by
  simp [Improves, List.subset_def]

/-- What `progress` saves of the job. -/
def progressChanges (job : Job) (passed : List String) : Changes :=
  if Improves job.bestPassed passed then { noProgress := some 0, bestPassed := some (sortedSet passed) }
  else { noProgress := some (job.noProgress + 1), bestPassed := some (sortedSet job.bestPassed) }

/-- `Store.progress`: the store and the caller's job after it, whether the checks improved, and
whether another correction is allowed. -/
def Store.progress (s : Store) (job : Job) (checks : List Check) (limit now : Nat) :
    Except String (Store × Job × Bool × Bool) := do
  if checks.any fun row => [Status.unknown, .environment, .notRun].contains row.status then
    .error "Verification prerequisites or outcomes are unresolved"
  else
    let s ← s.save job.id none (progressChanges job (passedIds checks)) now
    let job' ← s.payload job.id
    pure (s, job', decide (Improves job.bestPassed (passedIds checks)), decide (job'.noProgress < limit))

/-- What the loop holds between two corrections. -/
abbrev Held := Store × Job

/-- One correction after which the loop goes on: it is not accepted, nothing raises, and `progress`
allows another one. -/
def correction (v : Verifier) (limit : Nat) (held : Held) (c : Candidate × Nat) : Option Held :=
  match v.verification c.1 with
  | .error _ => none
  | .ok (true, _) => none
  | .ok (false, checks) =>
    match held.1.progress held.2 checks limit c.2 with
    | .ok (s, job, _, true) => some (s, job)
    | _ => none

/-- Consecutive corrections, each of them allowed; every candidate with the time of its `save`. -/
def corrections (v : Verifier) (limit : Nat) (held : Held) : List (Candidate × Nat) → Option Held
  | [] => some held
  | c :: run => (correction v limit held c).bind fun held => corrections v limit held run

/-- The checks that a candidate passes. -/
def passes (v : Verifier) (c : Candidate) : List String :=
  match v.verification c with
  | .ok (_, checks) => passedIds checks
  | .error _ => []

/-- A check fixed at admission passes that is not among the retained best ones. -/
def NewPass (v : Verifier) (job : Job) (c : Candidate) : Prop :=
  ∃ id ∈ v.fixed, id ∈ passes v c ∧ id ∉ job.bestPassed

/-- All that passed before passes again, and what is new are tests of the candidate only. -/
def OwnTestsAlone (v : Verifier) (job : Job) (c : Candidate) : Prop :=
  job.bestPassed ⊆ passes v c ∧ ¬ NewPass v job c ∧
    ∃ name ∈ c.added, regressionId name ∈ passes v c ∧ regressionId name ∉ job.bestPassed

/-! ### What one correction does to the counter -/

theorem find_save {s s' : Store} {identity : String} {state : Option JobState} {changes : Changes} {now : Nat}
    (h : s.save identity state changes now = .ok s') :
    ∃ previous : Job, s'.jobs.find identity = some (previous.saved changes state now) := by
  unfold Store.save Store.payload at h
  cases hfind : s.jobs.find identity with
  | none =>
    rw [hfind] at h
    cases h
  | some previous =>
    rw [hfind] at h
    refine ⟨previous, ?_⟩
    have hs' : s' = s.update identity (Job.saved changes state now) fun _ => rfl := by
      cases h
      rfl
    rw [hs']
    have hsaved : ∀ job : Job, (job.saved changes state now).id = job.id := fun _ => rfl
    have hmodify := find_modify_self s.jobs identity (Job.saved changes state now) hsaved
    rw [hfind] at hmodify
    exact hmodify

/-- The job that `progress` gives back holds the counter that it has computed. -/
theorem progress_ok {s s' : Store} {job job' : Job} {checks : List Check} {limit now : Nat} {improved allowed : Bool}
    (h : s.progress job checks limit now = .ok (s', job', improved, allowed)) :
    job'.noProgress = (if Improves job.bestPassed (passedIds checks) then 0 else job.noProgress + 1) ∧
      allowed = decide (job'.noProgress < limit) := by
  unfold Store.progress at h
  split at h
  · cases h
  · obtain ⟨saved, hsave, hrest⟩ := bind_ok.mp h
    obtain ⟨current, hcurrent, hpure⟩ := bind_ok.mp hrest
    obtain ⟨previous, hfind⟩ := find_save hsave
    rw [Store.payload, hfind] at hcurrent
    cases hcurrent
    cases hpure
    refine ⟨?_, rfl⟩
    unfold Job.saved progressChanges
    split <;> rfl

theorem correction_some {v : Verifier} {limit : Nat} {held held' : Held} {c : Candidate × Nat}
    (h : correction v limit held c = some held') :
    held'.2.noProgress = (if Improves held.2.bestPassed (passes v c.1) then 0 else held.2.noProgress + 1) ∧
      held'.2.noProgress < limit := by
  unfold correction at h
  unfold passes
  split at h
  · cases h
  · cases h
  · rename_i checks hchecks
    rw [hchecks]
    split at h
    · rename_i s job improved hprogress
      cases h
      obtain ⟨hcount, hallowed⟩ := progress_ok hprogress
      exact ⟨hcount, of_decide_eq_true hallowed.symm⟩
    · cases h

/-- A check that passes is fixed at admission or one of the candidate's own. -/
theorem passes_fixed_or_added {v : Verifier} {c : Candidate} {id : String} (h : id ∈ passes v c) :
    id ∈ v.fixed ∨ ∃ name ∈ c.added, regressionId name = id := by
  have hregression : ∀ {row : Check}, row ∈ v.regression c →
      row.id ∈ v.fixed ∨ ∃ name ∈ c.added, regressionId name = row.id := by
    intro row hrow
    obtain ⟨name, hname, rfl⟩ := List.mem_map.mp hrow
    rcases List.mem_append.mp hname with hname | hname
    · exact .inl (List.mem_cons_of_mem _ (List.mem_cons_of_mem _ (List.mem_map_of_mem hname)))
    · exact .inr ⟨name, hname, rfl⟩
  have hverify : ∀ {row : Check}, row ∈ (v.verify c).2 → row.status = .passed →
      row.id ∈ v.fixed ∨ ∃ name ∈ c.added, regressionId name = row.id := by
    intro row hrow hstatus
    unfold Verifier.verify at hrow
    split_ifs at hrow with hscope hrecover
    · rw [List.mem_singleton.mp hrow] at hstatus
      cases hstatus
    · rw [List.mem_singleton.mp hrow] at hstatus
      exact absurd hstatus hrecover
    · rcases List.mem_cons.mp hrow with rfl | hrow
      · exact .inl List.mem_cons_self
      · exact hregression hrow
  unfold passes Verifier.verification at h
  split at h
  · rename_i ok checks hchecks
    rw [mem_passedIds] at h
    split_ifs at hchecks
    · split at hchecks
      · cases hchecks
      · cases hchecks
        rcases List.mem_append.mp h with h | h
        · exact hverify h rfl
        · simp only [List.mem_singleton, Check.mk.injEq] at h
          rw [h.1]
          exact .inl (List.mem_cons_of_mem _ List.mem_cons_self)
    · rw [Except.ok.inj hchecks] at hverify
      exact hverify h rfl
  · cases h

theorem not_improves {v : Verifier} {job : Job} {c : Candidate} (hown : ¬ OwnTestsAlone v job c)
    (hnew : ¬ NewPass v job c) : ¬ Improves job.bestPassed (passes v c) := by
  intro himproves
  obtain ⟨hbest, id, hid, hold⟩ := improves_iff.mp himproves
  rcases passes_fixed_or_added hid with hfixed | ⟨name, hname, rfl⟩
  · exact hnew ⟨id, hfixed, hid, hold⟩
  · exact hown ⟨hbest, hnew, name, hname, hid, hold⟩

/-- The condition on a run, at each of its corrections. -/
def Each (v : Verifier) (limit : Nat) (held : Held) (run : List (Candidate × Nat)) (p : Job → Candidate → Prop) :
    Prop :=
  ∀ before c after current, run = before ++ c :: after → corrections v limit held before = some current →
    p current.2 c.1

theorem Each.head {v : Verifier} {limit : Nat} {held : Held} {c : Candidate × Nat} {run : List (Candidate × Nat)}
    {p : Job → Candidate → Prop} (h : Each v limit held (c :: run) p) : p held.2 c.1 :=
  h [] c run held rfl rfl

theorem Each.tail {v : Verifier} {limit : Nat} {held held' : Held} {c : Candidate × Nat}
    {run : List (Candidate × Nat)} {p : Job → Candidate → Prop} (h : Each v limit held (c :: run) p)
    (hc : correction v limit held c = some held') : Each v limit held' run p := by
  intro before c' after current hrun hbefore
  refine h (c :: before) c' after current (by rw [hrun]; rfl) ?_
  rw [corrections, hc]
  exact hbefore

theorem each_cons {v : Verifier} {limit : Nat} {held : Held} {c : Candidate × Nat} {run : List (Candidate × Nat)}
    {p : Job → Candidate → Prop} :
    Each v limit held (c :: run) p ↔
      p held.2 c.1 ∧ ∀ held', correction v limit held c = some held' → Each v limit held' run p := by
  constructor
  · intro h
    exact ⟨h.head, fun _ hc => h.tail hc⟩
  · rintro ⟨hhead, htail⟩ before c' after current hrun hbefore
    cases before with
    | nil =>
      cases hrun
      cases hbefore
      exact hhead
    | cons b before =>
      cases hrun
      rw [corrections] at hbefore
      obtain ⟨next, hc, hrest⟩ := Option.bind_eq_some_iff.mp hbefore
      exact htail next hc before c' after current rfl hrest

theorem each_nil {v : Verifier} {limit : Nat} {held : Held} {p : Job → Candidate → Prop} :
    Each v limit held [] p := by
  intro before c after current hrun
  simp at hrun

/-- The counter counts the corrections of such a run, and stays below the limit. -/
theorem corrections_count {v : Verifier} {limit : Nat} {run : List (Candidate × Nat)} {held held' : Held}
    (hrun : corrections v limit held run = some held')
    (hown : Each v limit held run fun job c => ¬ OwnTestsAlone v job c)
    (hnew : Each v limit held run fun job c => ¬ NewPass v job c) :
    held'.2.noProgress = held.2.noProgress + run.length ∧ (run ≠ [] → held'.2.noProgress < limit) := by
  induction run generalizing held with
  | nil =>
    cases hrun
    exact ⟨rfl, fun h => absurd rfl h⟩
  | cons c run ih =>
    rw [corrections] at hrun
    obtain ⟨next, hc, hrest⟩ := Option.bind_eq_some_iff.mp hrun
    obtain ⟨hcount, hlimit⟩ := correction_some hc
    rw [if_neg (not_improves hown.head hnew.head)] at hcount
    obtain ⟨hsum, hlast⟩ := ih hrest (hown.tail hc) (hnew.tail hc)
    refine ⟨?_, fun _ => ?_⟩
    · rw [hsum, hcount, List.length_cons]
      omega
    · by_cases hempty : run = []
      · subst hempty
        cases hrest
        exact hlimit
      · exact hlast hempty

/-- From any store and job: consecutive corrections that are allowed, without a new pass among the
checks fixed at admission, are no more than the limit if none of them gains on its own tests alone. -/
theorem corrections_bounded (v : Verifier) (limit : Nat) (held held' : Held) (run : List (Candidate × Nat))
    (hrun : corrections v limit held run = some held')
    (hown : Each v limit held run fun job c => ¬ OwnTestsAlone v job c)
    (hnew : Each v limit held run fun job c => ¬ NewPass v job c) : run.length ≤ limit := by
  obtain ⟨hsum, hlast⟩ := corrections_count hrun hown hnew
  by_cases hempty : run = []
  · simp [hempty]
  · have := hlast hempty
    omega

/-! ### Own tests, one more each time -/

instance (v : Verifier) (job : Job) (c : Candidate) : Decidable (NewPass v job c) :=
  inferInstanceAs (Decidable (∃ id ∈ v.fixed, id ∈ passes v c ∧ id ∉ job.bestPassed))

instance (v : Verifier) (job : Job) (c : Candidate) : Decidable (OwnTestsAlone v job c) :=
  inferInstanceAs (Decidable ((∀ id ∈ job.bestPassed, id ∈ passes v c) ∧ ¬ NewPass v job c ∧
    ∃ name ∈ c.added, regressionId name ∈ passes v c ∧ regressionId name ∉ job.bestPassed))

/-- `Each`, along the run. -/
def eachOf (v : Verifier) (limit : Nat) (p : Job → Candidate → Bool) : Held → List (Candidate × Nat) → Bool
  | _, [] => true
  | held, c :: run => p held.2 c.1 && (correction v limit held c).all fun held => eachOf v limit p held run

theorem eachOf_iff {v : Verifier} {limit : Nat} {p : Job → Candidate → Bool} {run : List (Candidate × Nat)}
    {held : Held} : eachOf v limit p held run = true ↔ Each v limit held run fun job c => p job c = true := by
  induction run generalizing held with
  | nil => exact iff_of_true rfl each_nil
  | cons c run ih =>
    rw [each_cons, eachOf, Bool.and_eq_true, Option.all_eq_true]
    simp only [ih]

/-- The admission revision has one regression file. -/
def oneFile : Verifier := ⟨["tests/test_a.py"]⟩

/-- The recovery succeeds, the original regression file fails, and the added files pass. -/
def gains (added : List String) : Candidate where
  recovery := ⟨true, 0, ""⟩
  report := some ⟨true, 0, ""⟩
  added := added
  tests name := if name = "tests/test_a.py" then ⟨⟨false, 1, ""⟩, 1⟩ else ⟨⟨true, 0, ""⟩, 1⟩
  review := ⟨true, some true⟩

/-- A job whose first correction has passed the original boundary. -/
def boundaryPassed : Job where
  id := "j"
  argv := []
  project := "/p"
  cwd := "/p"
  engine := "/e"
  created := 0
  bestPassed := ["original-boundary"]

def boundaryStore : Store := { Store.empty with jobs := Store.empty.jobs.insert boundaryPassed rfl }

def ownTests : List (Candidate × Nat) :=
  [(gains ["tests/repair/test_1.py"], 1),
    (gains ["tests/repair/test_1.py", "tests/repair/test_2.py"], 2),
    (gains ["tests/repair/test_1.py", "tests/repair/test_2.py", "tests/repair/test_3.py"], 3)]

/-- With a limit of two: a third correction is allowed, and no fixed check has passed anew. -/
theorem own_tests_unbounded :
    (corrections oneFile 2 (boundaryStore, boundaryPassed) ownTests).isSome = true ∧
      (Each oneFile 2 (boundaryStore, boundaryPassed) ownTests fun job c => ¬ NewPass oneFile job c) ∧
      ¬ ownTests.length ≤ 2 := by
  refine ⟨by decide +kernel, ?_, by decide⟩
  have hcheck : eachOf oneFile 2 (fun job c => decide (¬ NewPass oneFile job c))
      (boundaryStore, boundaryPassed) ownTests = true := by decide +kernel
  simpa using eachOf_iff.mp hcheck

/-- A correction that only fails again is allowed once, with a limit of two. -/
theorem corrections_bounded_once :
    ((corrections oneFile 2 (boundaryStore, boundaryPassed) [(gains [], 1)]).isSome = true) ∧
      [(gains [], 1)].length ≤ 2 := by
  have hsome : (corrections oneFile 2 (boundaryStore, boundaryPassed) [(gains [], 1)]).isSome = true := by
    decide +kernel
  obtain ⟨held, hheld⟩ := Option.isSome_iff_exists.mp hsome
  have hown : eachOf oneFile 2 (fun job c => decide (¬ OwnTestsAlone oneFile job c))
      (boundaryStore, boundaryPassed) [(gains [], 1)] = true := by decide +kernel
  have hnew : eachOf oneFile 2 (fun job c => decide (¬ NewPass oneFile job c))
      (boundaryStore, boundaryPassed) [(gains [], 1)] = true := by decide +kernel
  exact ⟨hsome, corrections_bounded oneFile 2 (boundaryStore, boundaryPassed) held [(gains [], 1)] hheld
    (by simpa using eachOf_iff.mp hown) (by simpa using eachOf_iff.mp hnew)⟩

end AutoAgents.Watch
