import AutoAgents.BaseRun

/-! The queue of the jobs that verify a candidate for release. One process enqueues the state that the project is in, and one
worker takes the latest job up; every call is one transaction of the database. -/

namespace AutoAgents.Release

open Base

inductive Status
  | pending | running | recovering | passed | failed | needsUser | superseded
  deriving DecidableEq

def Status.active : Status → Bool
  | .pending | .running | .recovering => true
  | .passed | .failed | .needsUser | .superseded => false

/-- A row of `release_jobs`. -/
structure Job where
  jobId : String
  candidateId : String
  candidateSha : String
  status : Status
  source : String
  affectedProofIds : List String
  releaseProofIds : List String := []
  failurePayload : String := "\x7b\x7d"
  logicalCommands : Int := 0
  executedCommands : Int := 0
  certificateHits : Int := 0
  recoveryAttempts : Int := 0
  infrastructureAttempts : Int := 0
  reason : String := ""
  queuedAt : ℚ
  updatedAt : ℚ
  startedAt : ℚ := 0
  completedAt : ℚ := 0
  supersededBy : String := ""
  recoveryCommit : String := ""

/-- The table: one job for each id, and one for each candidate. -/
structure Store where
  rows : List Job
  jobs_nodup : (rows.map Job.jobId).Nodup
  candidates_nodup : (rows.map Job.candidateId).Nodup

def Store.empty : Store := ⟨[], List.nodup_nil, List.nodup_nil⟩

/-- What an `UPDATE` sets: neither of the two ids. -/
structure Change where
  set : Job → Job
  jobId : ∀ job, (set job).jobId = job.jobId
  candidateId : ∀ job, (set job).candidateId = job.candidateId

/-- `reason[:1200]` -/
def shortened (reason : String) : String := String.ofList (reason.toList.take 1200)

namespace Store

/-- `UPDATE`, where the rows are those of a test. -/
def update (s : Store) (p : Job → Bool) (c : Change) : Store where
  rows := s.rows.map fun job => if p job = true then c.set job else job
  jobs_nodup := by
    have hsame : (fun job => Job.jobId (if p job = true then c.set job else job)) = Job.jobId := by
      funext job
      split
      · exact c.jobId job
      · rfl
    simpa only [List.map_map, Function.comp_def, hsame] using s.jobs_nodup
  candidates_nodup := by
    have hsame : (fun job => Job.candidateId (if p job = true then c.set job else job)) = Job.candidateId := by
      funext job
      split
      · exact c.candidateId job
      · rfl
    simpa only [List.map_map, Function.comp_def, hsame] using s.candidates_nodup

/-- `UPDATE ... WHERE job_id = ?` -/
def modify (s : Store) (jobId : String) (c : Change) : Store := s.update (fun job => job.jobId == jobId) c

/-- `INSERT`, which fails where one of the two ids is there. -/
def insert (s : Store) (job : Job) : Option Store :=
  if h : job.jobId ∉ s.rows.map Job.jobId ∧ job.candidateId ∉ s.rows.map Job.candidateId then
    some {
      rows := s.rows ++ [job]
      jobs_nodup := by
        rw [List.map_append]
        exact s.jobs_nodup.append (List.nodup_singleton _) (List.disjoint_singleton.mpr h.1)
      candidates_nodup := by
        rw [List.map_append]
        exact s.candidates_nodup.append (List.nodup_singleton _) (List.disjoint_singleton.mpr h.2) }
  else none

def get (s : Store) (jobId : String) : Option Job := s.rows.find? fun job => job.jobId == jobId

def candidate (s : Store) (candidateId : String) : Option Job := s.rows.find? fun job => job.candidateId == candidateId

/-- `ORDER BY queued_at DESC`, where the database orders the rows of one time as it likes. -/
def newestFirst (tie : String → Nat) (rows : List Job) : List Job :=
  rows.insertionSort fun a b => b.queuedAt < a.queuedAt ∨ a.queuedAt = b.queuedAt ∧ tie a.jobId ≤ tie b.jobId

def latest (s : Store) (tie : String → Nat) : Option Job := (newestFirst tie s.rows).head?

end Store

/-! ### Calls -/

/-- The job that a candidate is queued as. -/
def queuedJob (candidate : String × String) (source : String) (affectedProofIds : List String) (fresh : String) (now : ℚ) : Job where
  jobId := fresh
  candidateId := candidate.1
  candidateSha := candidate.2
  status := .pending
  source := source
  affectedProofIds := affectedProofIds
  queuedAt := now
  updatedAt := now

def supersededFor (jobId : String) (now : ℚ) : Change where
  set job := { job with
    status := .superseded, supersededBy := jobId, updatedAt := now, failurePayload := "\x7b\x7d", reason := shortened job.reason }
  jobId _ := rfl
  candidateId _ := rfl

def requeued (sha source : String) (affectedProofIds : List String) (now : ℚ) : Change where
  set job := { job with
    candidateSha := sha, status := .pending, source := source, affectedProofIds := affectedProofIds, failurePayload := "\x7b\x7d",
    reason := "", queuedAt := now, updatedAt := now, startedAt := 0, completedAt := 0, supersededBy := "" }
  jobId _ := rfl
  candidateId _ := rfl

/-- `list(dict.fromkeys(str(item) for item in affected_proof_ids if str(item)))` -/
def distinctIds (ids : List String) : List String := (ids.filter (· ≠ "")).reverse.dedup.reverse

/-- `enqueue`, of what `candidate_identity` says of the project: the table and the id of the job, or none where the new id was there. -/
def Store.enqueue (s : Store) (candidate : String × String) (source : String) (affectedProofIds : List String) (fresh : String) (now : ℚ) :
    Option (Store × String) :=
  let others (job : Job) : Bool := job.candidateId != candidate.1 && job.status.active
  match s.candidate candidate.1 with
  | some existing =>
      if existing.status = .passed then some (s, existing.jobId)
      else
        some (((s.update others (supersededFor existing.jobId now)).modify existing.jobId
          (requeued candidate.2 source (distinctIds affectedProofIds) now)), existing.jobId)
  | none =>
      ((s.update others (supersededFor fresh now)).insert (queuedJob candidate source (distinctIds affectedProofIds) fresh now)).map
        fun s => (s, fresh)

def claimed (now : ℚ) : Change where
  set job := { job with status := .running, startedAt := now, updatedAt := now }
  jobId _ := rfl
  candidateId _ := rfl

/-- The row that `claim_latest` takes up; the clock was asked once before the transaction. -/
def Store.claimable (s : Store) (tie : String → Nat) (idleDelaySeconds : Int) (asked : ℚ) : Option Job :=
  (newestFirst tie (s.rows.filter fun job => job.status == .pending && decide (job.queuedAt ≤ asked - max 0 idleDelaySeconds))).head?

/-- `claim_latest` -/
def Store.claimLatest (s : Store) (tie : String → Nat) (idleDelaySeconds : Int) (asked now : ℚ) : Store :=
  match s.claimable tie idleDelaySeconds asked with
  | none => s
  | some job => s.modify job.jobId (claimed now)

/-- `requeue_abandoned` -/
def Store.requeueAbandoned (s : Store) (now : ℚ) : Store :=
  s.update (fun job => job.status == .running || job.status == .recovering) {
    set := fun job => { job with
      status := .pending, queuedAt := now, updatedAt := now, reason := "release worker restarted after interruption" }
    jobId := fun _ => rfl
    candidateId := fun _ => rfl }

/-- The result of a verification, with what `_encode_failure` makes of it. -/
structure Result where
  ok : Bool
  proofIds : List String := []
  logicalCommands : Int := 0
  executedCommands : Int := 0
  certificateHits : Int := 0
  reason : String := ""
  encoded : String := "\x7b\x7d"

/-- The calls that update one job by its id. The attempts are those that were read before. -/
inductive Operation
  | markRunning
  | markRecovering (attempts : Int) (failurePayload reason : String)
  | recordInfrastructureRetry (attempts : Int) (failurePayload reason : String)
  | defer (reason : String)
  | complete (result : Result) (recoveryCommit : String)
  | needsUser (reason failurePayload : String)
  | supersede (supersededBy : String)

/-- What the call sets. -/
def Operation.row (now : ℚ) (job : Job) : Operation → Job
  | .markRunning => { job with status := .running, startedAt := now, updatedAt := now }
  | .markRecovering attempts failurePayload reason => { job with
      status := .recovering, failurePayload := failurePayload, reason := shortened reason, recoveryAttempts := attempts + 1,
      updatedAt := now }
  | .recordInfrastructureRetry attempts failurePayload reason => { job with
      status := .pending, failurePayload := failurePayload, reason := shortened reason, infrastructureAttempts := attempts + 1,
      queuedAt := now, updatedAt := now }
  | .defer reason => { job with status := .pending, reason := reason, queuedAt := now, updatedAt := now }
  | .complete result recoveryCommit => { job with
      status := if result.ok = true then .passed else .failed
      releaseProofIds := result.proofIds
      logicalCommands := result.logicalCommands
      executedCommands := result.executedCommands
      certificateHits := result.certificateHits
      reason := shortened result.reason
      failurePayload := if result.ok = true then "\x7b\x7d" else result.encoded
      completedAt := now
      recoveryCommit := recoveryCommit
      updatedAt := now }
  | .needsUser reason failurePayload => { job with
      status := .needsUser, reason := shortened reason, failurePayload := failurePayload, completedAt := now, updatedAt := now }
  | .supersede supersededBy => { job with
      status := .superseded, failurePayload := "\x7b\x7d", supersededBy := supersededBy, completedAt := now, updatedAt := now }

def Operation.change (op : Operation) (now : ℚ) : Change where
  set job := op.row now job
  jobId job := by cases op <;> rfl
  candidateId job := by cases op <;> rfl

/-- The status that the call leaves. -/
def Operation.status : Operation → Status
  | .markRunning => .running
  | .markRecovering .. => .recovering
  | .recordInfrastructureRetry .. | .defer _ => .pending
  | .complete result _ => if result.ok = true then .passed else .failed
  | .needsUser .. => .needsUser
  | .supersede _ => .superseded

@[simp] theorem Operation.change_status (op : Operation) (now : ℚ) (job : Job) : ((op.change now).set job).status = op.status := by
  cases op <;> rfl

/-! ### Attestation -/

/-- The job of the current state of the project, queued where the latest job is of another one. -/
def Store.currentJob (s : Store) (tie : String → Nat) (candidate : String × String) (fresh : String) (now : ℚ) : Option (Store × String) :=
  match s.latest tie with
  | some job =>
      if job.candidateId = candidate.1 then some (s, job.jobId) else s.enqueue candidate "manual-verify" [] fresh now
  | none => s.enqueue candidate "manual-verify" [] fresh now

/-- `begin_release_verification` -/
def Store.beginReleaseVerification (s : Store) (tie : String → Nat) (candidate : String × String) (fresh : String) (now : ℚ) : Option Store :=
  (s.currentJob tie candidate fresh now).map fun (s, jobId) => s.modify jobId (Operation.markRunning.change now)

/-- `complete_release_verification` -/
def Store.completeReleaseVerification (s : Store) (tie : String → Nat) (candidate : String × String) (fresh : String) (result : Result)
    (now : ℚ) : Option Store :=
  (s.currentJob tie candidate fresh now).map fun (s, jobId) => s.modify jobId ((Operation.complete result "").change now)

/-! ### Runs -/

/-- The calls that the two processes make, between edits of the project. -/
inductive Call (Project : Type)
  | edit (project : Project)
  | enqueue (source : String) (affectedProofIds : List String) (fresh : String)
  | claimLatest (tie : String → Nat) (idleDelaySeconds : Int) (asked : ℚ)
  | requeueAbandoned
  | update (jobId : String) (op : Operation)

/-- The database and the project, with what the law speaks of: the candidate that was enqueued last, and the state that the project was in
when the verification of a job began that is under way. -/
structure World (Project : Type) where
  store : Store
  project : Project
  clock : ℚ
  lastEnqueued : Option String
  begun : String → Option String

variable {Project : Type} (identity : Project → String × String)

/-- The candidate that the project is now. -/
def World.current (w : World Project) : String := (identity w.project).1

/-- A job is set running: its verification begins. -/
def World.begin (w : World Project) (jobId : String) : String → Option String :=
  Function.update w.begun jobId (some (w.current identity))

/-- One call at a time. A call that fails leaves everything as it was. -/
def World.exec (w : World Project) (now : ℚ) : Call Project → World Project
  | .edit project => { w with project := project, clock := now }
  | .enqueue source affectedProofIds fresh =>
      match w.store.enqueue (identity w.project) source affectedProofIds fresh now with
      | none => { w with clock := now }
      | some (store, _) =>
          { w with store := store, clock := now, lastEnqueued := some (w.current identity), begun := fun _ => none }
  | .claimLatest tie idleDelaySeconds asked =>
      match w.store.claimable tie idleDelaySeconds asked with
      | none => { w with clock := now }
      | some job => { w with
          store := w.store.claimLatest tie idleDelaySeconds asked now, clock := now, begun := w.begin identity job.jobId }
  | .requeueAbandoned => { w with store := w.store.requeueAbandoned now, clock := now, begun := fun _ => none }
  | .update jobId op => { w with
      store := w.store.modify jobId (op.change now)
      clock := now
      begun := if op.status = .running then w.begin identity jobId else Function.update w.begun jobId none }

/-- The calls of a queue that is empty at first, in any order, as the clock goes on. -/
def queue (project : Project) : System (World Project) (ℚ × Call Project) where
  start w := w = ⟨.empty, project, 0, none, fun _ => none⟩
  step w l w' := w.clock ≤ l.1 ∧ w' = w.exec identity l.1 l.2

/-! ### The law -/

/-- Every job that is pending, running or recovering is of the candidate that was enqueued last. -/
def Latest (w : World Project) : Prop := ∀ job ∈ w.store.rows, job.status.active = true → w.lastEnqueued = some job.candidateId

/-- The call enqueues this candidate. -/
def Enqueues (w : World Project) (candidateId : String) : Call Project → Prop
  | .enqueue .. => w.current identity = candidateId
  | _ => False

/-- The verification of the job was begun while the project was in its state, and the project is in it. -/
def Verified (w : World Project) (job : Job) : Prop :=
  w.begun job.jobId = some job.candidateId ∧ w.current identity = job.candidateId

/-- What a call may make of the status of a job. -/
structure Lawful (w : World Project) (call : Call Project) (job : Job) (status : Status) : Prop where
  superseded : job.status = .superseded → status ≠ .superseded → Enqueues identity w job.candidateId call
  stays : job.status = .passed → status = .passed
  passes : job.status ≠ .passed → status = .passed → Verified identity w job

/-- A call keeps the law: the active jobs after it are of the latest candidate, every job that was there stays and is changed lawfully, and
no job is new and passed. -/
def KeepsLaw (w : World Project) (call : Call Project) (w' : World Project) : Prop :=
  Latest w' ∧
    (∀ job ∈ w.store.rows, ∃ job' ∈ w'.store.rows, job'.jobId = job.jobId ∧ job'.candidateId = job.candidateId ∧
      Lawful identity w call job job'.status) ∧
    ∀ job' ∈ w'.store.rows, job'.jobId ∉ w.store.rows.map Job.jobId → job'.status ≠ .passed

/-- What a call by its id may be made on, as the job and the project are before it. -/
def MayUpdate (w : World Project) (job : Job) (op : Operation) : Prop :=
  match op.status with
  | .pending | .running | .recovering => job.status ≠ .superseded ∧ job.status ≠ .passed ∧ w.lastEnqueued = some job.candidateId
  | .passed => job.status = .passed ∨ job.status ≠ .superseded ∧ Verified identity w job
  | .failed | .needsUser => job.status ≠ .superseded ∧ job.status ≠ .passed
  | .superseded => job.status ≠ .passed

/-- The calls that are made as they have to be: a candidate that has passed is enqueued again only while no other job is active, and a
job is updated only as it may be. -/
def Proper (w : World Project) : Call Project → Prop
  | .enqueue .. => ∀ existing ∈ w.store.rows, existing.candidateId = w.current identity → existing.status = .passed →
      ∀ job ∈ w.store.rows, job.status.active = false
  | .update jobId op => ∀ job ∈ w.store.rows, job.jobId = jobId → MayUpdate identity w job op
  | .edit _ | .claimLatest .. | .requeueAbandoned => True

/-! ### One call -/

variable {identity} {w w' : World Project} {call : Call Project} {now : ℚ}

namespace Store

variable {s : Store} {p : Job → Bool} {c : Change} {job job' : Job}

theorem eq_of_jobId (hjob : job ∈ s.rows) (hjob' : job' ∈ s.rows) (hsame : job.jobId = job'.jobId) : job = job' :=
  List.inj_on_of_nodup_map s.jobs_nodup hjob hjob' hsame

theorem eq_of_candidateId (hjob : job ∈ s.rows) (hjob' : job' ∈ s.rows) (hsame : job.candidateId = job'.candidateId) : job = job' :=
  List.inj_on_of_nodup_map s.candidates_nodup hjob hjob' hsame

theorem mem_update : job' ∈ (s.update p c).rows ↔ ∃ job ∈ s.rows, (if p job = true then c.set job else job) = job' := List.mem_map

theorem mem_candidate {candidateId : String} (h : s.candidate candidateId = some job) : job ∈ s.rows ∧ job.candidateId = candidateId :=
  ⟨List.mem_of_find?_eq_some h, by simpa using List.find?_some h⟩

theorem candidate_none {candidateId : String} (h : s.candidate candidateId = none) : ∀ job ∈ s.rows, job.candidateId ≠ candidateId := by
  simpa [candidate] using h

theorem mem_newestFirst {tie : String → Nat} {rows : List Job} (h : (newestFirst tie rows).head? = some job) : job ∈ rows :=
  (List.mem_insertionSort _).mp (List.mem_of_mem_head? h)

theorem mem_claimable {tie : String → Nat} {idleDelaySeconds : Int} {asked : ℚ} (h : s.claimable tie idleDelaySeconds asked = some job) :
    job ∈ s.rows ∧ job.status = .pending := by
  have hmem := List.mem_filter.mp (mem_newestFirst h)
  refine ⟨hmem.1, ?_⟩
  simpa using (Bool.and_eq_true_iff.mp hmem.2).1

theorem mem_insert {s' : Store} (h : s.insert job = some s') : s'.rows = s.rows ++ [job] := by
  unfold insert at h
  split at h
  · rw [← Option.some.inj h]
  · cases h

end Store

/-- A job that is left as it is. -/
theorem Lawful.same {job : Job} : Lawful identity w call job job.status where
  superseded hold hnew := absurd hold hnew
  stays hold := hold
  passes hold hnew := absurd hnew hold

/-- The jobs are changed one by one, and those that are new are of the candidate that was enqueued last. -/
theorem keepsLaw_map {f : Job → Job} (new : List Job) (hrows : w'.store.rows = w.store.rows.map f ++ new)
    (hids : ∀ job, (f job).jobId = job.jobId ∧ (f job).candidateId = job.candidateId)
    (hold : ∀ job ∈ w.store.rows, ((f job).status.active = true → w'.lastEnqueued = some job.candidateId) ∧
      Lawful identity w call job (f job).status)
    (hnew : ∀ job ∈ new, w'.lastEnqueued = some job.candidateId ∧ job.status ≠ .passed) : KeepsLaw identity w call w' := by
  refine ⟨?_, ?_, ?_⟩
  · intro job' hjob' hactive
    rw [hrows] at hjob'
    rcases List.mem_append.mp hjob' with hkept | hadded
    · obtain ⟨job, hjob, rfl⟩ := List.mem_map.mp hkept
      rw [(hids job).2]
      exact (hold job hjob).1 hactive
    · exact (hnew job' hadded).1
  · intro job hjob
    refine ⟨f job, ?_, (hids job).1, (hids job).2, (hold job hjob).2⟩
    rw [hrows]
    exact List.mem_append_left _ (List.mem_map_of_mem hjob)
  · intro job' hjob' hunknown
    rw [hrows] at hjob'
    rcases List.mem_append.mp hjob' with hkept | hadded
    · obtain ⟨job, hjob, rfl⟩ := List.mem_map.mp hkept
      exact absurd (List.mem_map.mpr ⟨job, hjob, (hids job).1.symm⟩) hunknown
    · exact (hnew job' hadded).2

/-- An update keeps the law if and only if it does so for the jobs that it is made on. -/
theorem keepsLaw_update {p : Job → Bool} {c : Change} (hstore : w'.store = w.store.update p c)
    (hlast : w'.lastEnqueued = w.lastEnqueued) (hlatest : Latest w) :
    KeepsLaw identity w call w' ↔ ∀ job ∈ w.store.rows, p job = true →
      ((c.set job).status.active = true → w.lastEnqueued = some job.candidateId) ∧ Lawful identity w call job (c.set job).status := by
  have himage : ∀ job ∈ w.store.rows, (if p job = true then c.set job else job) ∈ w'.store.rows := by
    intro job hjob
    rw [hstore]
    exact Store.mem_update.mpr ⟨job, hjob, rfl⟩
  constructor
  · rintro ⟨hafter, hlawful, -⟩ job hjob hp
    have hset := himage job hjob
    rw [if_pos hp] at hset
    refine ⟨fun hactive => ?_, ?_⟩
    · rw [← hlast, hafter _ hset hactive, c.candidateId]
    · obtain ⟨job', hjob', hid, -, hlawful⟩ := hlawful job hjob
      rwa [w'.store.eq_of_jobId hjob' hset (hid.trans (c.jobId job).symm)] at hlawful
  · intro hupdate
    refine keepsLaw_map [] (by rw [hstore, Store.update, List.append_nil]) ?_ ?_ (by simp)
    · intro job
      split
      · exact ⟨c.jobId job, c.candidateId job⟩
      · exact ⟨rfl, rfl⟩
    · intro job hjob
      by_cases hp : p job = true
      · rw [if_pos hp, hlast]
        exact hupdate job hjob hp
      · rw [if_neg hp, hlast]
        exact ⟨hlatest job hjob, .same⟩

/-- A job that is active is neither superseded nor passed, and may become active or superseded. -/
theorem Lawful.of_active {job : Job} {status : Status} (hactive : job.status.active = true) (hstatus : status ≠ .passed) :
    Lawful identity w call job status where
  superseded hold := by
    rw [hold] at hactive
    cases hactive
  stays hold := by
    rw [hold] at hactive
    cases hactive
  passes _ hnew := absurd hnew hstatus

theorem mayUpdate_iff {job : Job} {jobId : String} {op : Operation} :
    MayUpdate identity w job op ↔ (op.status.active = true → w.lastEnqueued = some job.candidateId) ∧
      Lawful identity w (.update jobId op) job op.status := by
  have hlawful : Lawful identity w (.update jobId op) job op.status ↔ (job.status = .superseded → op.status = .superseded) ∧
      (job.status = .passed → op.status = .passed) ∧ (job.status ≠ .passed → op.status = .passed → Verified identity w job) := by
    constructor
    · exact fun h => ⟨fun hold => by_contra fun hnew => h.superseded hold hnew, h.stays, h.passes⟩
    · exact fun h => ⟨fun hold hnew => absurd (h.1 hold) hnew, h.2.1, h.2.2⟩
  rw [hlawful]
  unfold MayUpdate
  cases hstatus : op.status <;> cases hjob : job.status <;> simp [Status.active]

/-- A call that leaves the jobs as they are. -/
theorem keepsLaw_same (hstore : w'.store = w.store) (hlast : w'.lastEnqueued = w.lastEnqueued) (hlatest : Latest w) :
    KeepsLaw identity w call w' := by
  unfold KeepsLaw Latest
  rw [hstore, hlast]
  exact ⟨hlatest, fun job hjob => ⟨job, hjob, rfl, rfl, .same⟩, fun job hjob hnew => absurd (List.mem_map_of_mem hjob) hnew⟩

theorem update_keepsLaw {jobId : String} {op : Operation} (hlatest : Latest w) :
    KeepsLaw identity w (.update jobId op) (w.exec identity now (.update jobId op)) ↔ Proper identity w (.update jobId op) := by
  have hupdate : (w.exec identity now (.update jobId op)).store = w.store.update (fun job => job.jobId == jobId) (op.change now) := rfl
  rw [keepsLaw_update hupdate rfl hlatest]
  simp only [Proper, Operation.change_status, beq_iff_eq]
  exact forall₂_congr fun job _ => imp_congr_right fun _ => mayUpdate_iff.symm

theorem claimLatest_keepsLaw {tie : String → Nat} {idleDelaySeconds : Int} {asked : ℚ} (hlatest : Latest w) :
    KeepsLaw identity w (.claimLatest tie idleDelaySeconds asked) (w.exec identity now (.claimLatest tie idleDelaySeconds asked)) := by
  cases hclaim : w.store.claimable tie idleDelaySeconds asked with
  | none => exact keepsLaw_same (by simp only [World.exec, hclaim]) (by simp only [World.exec, hclaim]) hlatest
  | some row =>
      obtain ⟨hrow, hpending⟩ := Store.mem_claimable hclaim
      refine (keepsLaw_update (p := fun job => job.jobId == row.jobId) (c := claimed now) ?_ ?_ hlatest).mpr ?_
      · simp only [World.exec, Store.claimLatest, hclaim, Store.modify]
      · simp only [World.exec, hclaim]
      · intro job hjob hsame
        obtain rfl := w.store.eq_of_jobId hjob hrow (beq_iff_eq.mp hsame)
        have hactive : job.status.active = true := by rw [hpending]; rfl
        exact ⟨fun _ => hlatest job hjob hactive, .of_active hactive (by simp [claimed])⟩

theorem requeueAbandoned_keepsLaw (hlatest : Latest w) :
    KeepsLaw identity w .requeueAbandoned (w.exec identity now .requeueAbandoned) := by
  have hupdate : (w.exec identity now .requeueAbandoned).store = w.store.requeueAbandoned now := rfl
  refine (keepsLaw_update hupdate rfl hlatest).mpr ?_
  intro job hjob habandoned
  have hactive : job.status.active = true := by
    rcases Bool.or_eq_true_iff.mp habandoned with hstatus | hstatus <;> rw [beq_iff_eq.mp hstatus] <;> rfl
  exact ⟨fun _ => hlatest job hjob hactive, .of_active hactive (by simp)⟩

/-- A candidate that has passed stays as it is, and so do the other jobs. -/
theorem enqueue_passed {source : String} {affectedProofIds : List String} {fresh : String} {existing : Job}
    (hcandidate : w.store.candidate (identity w.project).1 = some existing) (hpassed : existing.status = .passed) :
    KeepsLaw identity w (.enqueue source affectedProofIds fresh) (w.exec identity now (.enqueue source affectedProofIds fresh)) ↔
      Proper identity w (.enqueue source affectedProofIds fresh) := by
  obtain ⟨hmem, hexisting⟩ := Store.mem_candidate hcandidate
  have hafter : w.exec identity now (.enqueue source affectedProofIds fresh) =
      { w with clock := now, lastEnqueued := some (w.current identity), begun := fun _ => none } := by
    simp only [World.exec, Store.enqueue, hcandidate, hpassed, if_true]
  rw [hafter]
  constructor
  · rintro ⟨hlatest, -, -⟩ _ _ _ _ job hjob
    by_contra hactive
    rw [Bool.not_eq_false] at hactive
    have hsame := w.store.eq_of_candidateId hjob hmem ((Option.some.inj (hlatest job hjob hactive)).symm.trans hexisting.symm)
    rw [hsame, hpassed] at hactive
    cases hactive
  · intro hproper
    refine ⟨fun job hjob hactive => ?_, fun job hjob => ⟨job, hjob, rfl, rfl, .same⟩, fun job hjob hnew => absurd (List.mem_map_of_mem hjob) hnew⟩
    rw [hproper existing hmem hexisting hpassed job hjob] at hactive
    cases hactive

theorem enqueue_again {source : String} {affectedProofIds : List String} {fresh : String} {existing : Job}
    (hcandidate : w.store.candidate (identity w.project).1 = some existing) (hunpassed : existing.status ≠ .passed) :
    KeepsLaw identity w (.enqueue source affectedProofIds fresh) (w.exec identity now (.enqueue source affectedProofIds fresh)) := by
  obtain ⟨hmem, hexisting⟩ := Store.mem_candidate hcandidate
  have hexec : w.exec identity now (.enqueue source affectedProofIds fresh) = { w with
      store := (w.store.update (fun job => job.candidateId != (identity w.project).1 && job.status.active)
        (supersededFor existing.jobId now)).modify existing.jobId
          (requeued (identity w.project).2 source (distinctIds affectedProofIds) now)
      clock := now, lastEnqueued := some (w.current identity), begun := fun _ => none } := by
    simp only [World.exec, Store.enqueue, hcandidate, if_neg hunpassed]
  rw [hexec]
  refine keepsLaw_map [] (by simp only [Store.modify, Store.update, List.map_map, List.append_nil]; rfl) ?_ ?_ (by simp)
  · intro job
    simp only [Function.comp_apply]
    constructor <;> split <;> split <;> rfl
  · intro job hjob
    simp only [Function.comp_apply]
    by_cases hothers : (job.candidateId != (identity w.project).1 && job.status.active) = true
    · obtain ⟨hother, hactive⟩ := Bool.and_eq_true_iff.mp hothers
      have hne : ¬ (job.jobId == existing.jobId) = true := by
        intro hsame
        rw [w.store.eq_of_jobId hjob hmem (beq_iff_eq.mp hsame), hexisting] at hother
        simp at hother
      have hsuperseded : ¬ (((supersededFor existing.jobId now).set job).jobId == existing.jobId) = true := hne
      rw [if_pos hothers, if_neg hsuperseded]
      exact ⟨fun h => absurd h Bool.false_ne_true, .of_active hactive (by simp [supersededFor])⟩
    · rw [if_neg hothers]
      by_cases hsame : (job.jobId == existing.jobId) = true
      · obtain rfl := w.store.eq_of_jobId hjob hmem (beq_iff_eq.mp hsame)
        rw [if_pos hsame]
        exact ⟨fun _ => congrArg some hexisting.symm, fun _ _ => hexisting.symm, fun h => absurd h hunpassed, fun _ h => nomatch h⟩
      · rw [if_neg hsame]
        refine ⟨fun hactive => ?_, .same⟩
        have hcurrent : job.candidateId = (identity w.project).1 := by
          by_contra hother
          exact hothers (by simp [hother, hactive])
        exact congrArg some hcurrent.symm

theorem enqueue_new {source : String} {affectedProofIds : List String} {fresh : String}
    (hlatest : Latest w) (hcandidate : w.store.candidate (identity w.project).1 = none) :
    KeepsLaw identity w (.enqueue source affectedProofIds fresh) (w.exec identity now (.enqueue source affectedProofIds fresh)) := by
  have hnew := Store.candidate_none hcandidate
  cases hinsert : (w.store.update (fun job => job.candidateId != (identity w.project).1 && job.status.active)
      (supersededFor fresh now)).insert (queuedJob (identity w.project) source (distinctIds affectedProofIds) fresh now) with
  | none =>
      refine keepsLaw_same ?_ ?_ hlatest <;> simp only [World.exec, Store.enqueue, hcandidate, hinsert, Option.map_none]
  | some store =>
      have hexec : w.exec identity now (.enqueue source affectedProofIds fresh) =
          { w with store := store, clock := now, lastEnqueued := some (w.current identity), begun := fun _ => none } := by
        simp only [World.exec, Store.enqueue, hcandidate, hinsert, Option.map_some]
      rw [hexec]
      refine keepsLaw_map [queuedJob (identity w.project) source (distinctIds affectedProofIds) fresh now]
        (Store.mem_insert hinsert) ?_ ?_ ?_
      · intro job
        constructor <;> split <;> rfl
      · intro job hjob
        by_cases hactive : job.status.active = true
        · rw [if_pos (by simp [hactive, hnew job hjob])]
          exact ⟨fun h => absurd h Bool.false_ne_true, .of_active hactive (by simp [supersededFor])⟩
        · rw [if_neg (by simp [hactive])]
          exact ⟨fun h => absurd h hactive, .same⟩
      · intro job hjob
        rw [List.mem_singleton.mp hjob]
        exact ⟨rfl, by simp [queuedJob]⟩

theorem enqueue_keepsLaw {source : String} {affectedProofIds : List String} {fresh : String} (hlatest : Latest w) :
    KeepsLaw identity w (.enqueue source affectedProofIds fresh) (w.exec identity now (.enqueue source affectedProofIds fresh)) ↔
      Proper identity w (.enqueue source affectedProofIds fresh) := by
  cases hcandidate : w.store.candidate (identity w.project).1 with
  | none =>
      have hnew := Store.candidate_none hcandidate
      exact iff_of_true (enqueue_new hlatest hcandidate) fun existing hmem hsame => absurd hsame (hnew existing hmem)
  | some existing =>
      by_cases hpassed : existing.status = .passed
      · exact enqueue_passed hcandidate hpassed
      · obtain ⟨hmem, hexisting⟩ := Store.mem_candidate hcandidate
        refine iff_of_true (enqueue_again hcandidate hpassed) fun other hother hsame hpass => ?_
        rw [w.store.eq_of_candidateId hother hmem (hsame.trans hexisting.symm)] at hpass
        exact absurd hpass hpassed

/-- A call keeps the law if and only if it is made as it has to be. -/
theorem exec_keepsLaw (hlatest : Latest w) : KeepsLaw identity w call (w.exec identity now call) ↔ Proper identity w call := by
  cases call with
  | edit project => exact iff_of_true (keepsLaw_same rfl rfl hlatest) trivial
  | enqueue source affectedProofIds fresh => exact enqueue_keepsLaw hlatest
  | claimLatest tie idleDelaySeconds asked => exact iff_of_true (claimLatest_keepsLaw hlatest) trivial
  | requeueAbandoned => exact iff_of_true (requeueAbandoned_keepsLaw hlatest) trivial
  | update jobId op => exact update_keepsLaw hlatest

/-! ### Whole runs -/

variable {project : Project} {trace : List (Taken (World Project) (ℚ × Call Project))}

/-- In a run the law holds of every call, exactly if every call is made as it has to be. -/
theorem run_keepsLaw (h : System.Run (queue identity project) trace w) :
    (∀ e ∈ trace, KeepsLaw identity e.before e.label.2 e.after) ↔ ∀ e ∈ trace, Proper identity e.before e.label.2 := by
  have hboth : (∀ e ∈ trace, KeepsLaw identity e.before e.label.2 e.after) ∨ (∀ e ∈ trace, Proper identity e.before e.label.2) →
      Latest w ∧ (∀ e ∈ trace, KeepsLaw identity e.before e.label.2 e.after) ∧ ∀ e ∈ trace, Proper identity e.before e.label.2 := by
    induction h with
    | start hstart =>
        intro _
        rw [hstart]
        simp [Latest, Store.empty]
    | step hrun hstep ih =>
        rename_i trace s t l
        intro hall
        have hbefore := ih (hall.imp (fun h e he => h e (List.mem_append_left _ he)) fun h e he => h e (List.mem_append_left _ he))
        have hiff := @exec_keepsLaw Project identity s l.2 l.1 hbefore.1
        rw [← hstep.2] at hiff
        have hlast : KeepsLaw identity s l.2 t := by
          rcases hall with h | h
          · exact h ⟨s, l, t⟩ (by simp)
          · exact hiff.mpr (h ⟨s, l, t⟩ (by simp))
        refine ⟨hlast.1, ?_, ?_⟩
        · simpa [or_imp, forall_and] using ⟨hbefore.2.1, hlast⟩
        · simpa [or_imp, forall_and] using ⟨hbefore.2.2, hiff.mp hlast⟩
  exact ⟨fun h => (hboth (.inl h)).2.2, fun h => (hboth (.inr h)).2.1⟩

/-! ### Verifications of the project as it is -/

/-- Some calls, one after the other. -/
def World.execAll (identity : Project → String × String) (w : World Project) (now : ℚ) (calls : List (Call Project)) : World Project :=
  calls.foldl (fun w call => w.exec identity now call) w

theorem exec_clock : (w.exec identity now call).clock = now := by
  cases call <;> simp only [World.exec] <;> split <;> rfl

/-- The transitions of the calls. -/
def World.taken (identity : Project → String × String) (w : World Project) (now : ℚ) :
    List (Call Project) → List (Taken (World Project) (ℚ × Call Project))
  | [] => []
  | call :: rest => ⟨w, (now, call), w.exec identity now call⟩ :: World.taken identity (w.exec identity now call) now rest

theorem execAll_run (h : System.Run (queue identity project) trace w) (hnow : w.clock ≤ now) (calls : List (Call Project)) :
    System.Run (queue identity project) (trace ++ w.taken identity now calls) (w.execAll identity now calls) := by
  induction calls generalizing w trace with
  | nil => rwa [World.taken, List.append_nil]
  | cons call rest ih =>
      have hrun := ih (h.step (l := (now, call)) ⟨hnow, rfl⟩) exec_clock.le
      rwa [List.append_assoc, List.singleton_append] at hrun

/-- The job of the current state is one that is there, or that a call of `enqueue` leaves. -/
theorem currentJob_calls {tie : String → Nat} {fresh jobId : String} {s : Store}
    (h : w.store.currentJob tie (identity w.project) fresh now = some (s, jobId)) :
    ∃ calls : List (Call Project), (w.execAll identity now calls).store = s := by
  have henqueue : w.store.enqueue (identity w.project) "manual-verify" [] fresh now = some (s, jobId) →
      ∃ calls : List (Call Project), (w.execAll identity now calls).store = s := by
    intro h
    exact ⟨[.enqueue "manual-verify" [] fresh], by simp only [World.execAll, List.foldl_cons, List.foldl_nil, World.exec, h]⟩
  unfold Store.currentJob at h
  split at h
  · split at h
    · obtain ⟨rfl, -⟩ := Prod.mk.inj (Option.some.inj h)
      exact ⟨[], rfl⟩
    · exact henqueue h
  · exact henqueue h

/-- Beginning and completing a verification of the project as it is are calls of the queue, so the law is the same with them. -/
theorem attestation_calls {tie : String → Nat} {fresh : String} {result : Result} {s : Store}
    (h : w.store.beginReleaseVerification tie (identity w.project) fresh now = some s ∨
      w.store.completeReleaseVerification tie (identity w.project) fresh result now = some s) :
    ∃ calls : List (Call Project), (w.execAll identity now calls).store = s := by
  have hupdate : ∀ op : Operation, (w.store.currentJob tie (identity w.project) fresh now).map
      (fun (s, jobId) => s.modify jobId (op.change now)) = some s → ∃ calls : List (Call Project), (w.execAll identity now calls).store = s := by
    intro op hop
    obtain ⟨⟨current, jobId⟩, hcurrent, rfl⟩ := Option.map_eq_some_iff.mp hop
    obtain ⟨calls, rfl⟩ := currentJob_calls hcurrent
    refine ⟨calls ++ [.update jobId op], ?_⟩
    simp only [World.execAll, List.foldl_append, List.foldl_cons, List.foldl_nil, World.exec]
  rcases h with h | h
  · exact hupdate .markRunning h
  · exact hupdate (.complete result "") h

/-! ### A job that is held too long -/

/-- A project that is told by a candidate and its commit. -/
abbrev Plain := String × String

def idleWorld : World Plain := ⟨.empty, ("a", "1"), 0, none, fun _ => none⟩

def heldCalls : List (Call Plain) := [.enqueue "run" [] "j1", .update "j1" .markRunning]

theorem idleWorld_run (calls : List (Call Plain)) :
    System.Run (queue id ("a", "1")) (idleWorld.taken id 0 calls) (idleWorld.execAll id 0 calls) :=
  execAll_run (.start rfl) le_rfl calls

/-- An enqueued job is claimed, and completed in the state that it was begun in. -/
def completedRun : List (Taken (World Plain) (ℚ × Call Plain)) :=
  idleWorld.taken id 0 (heldCalls ++ [.update "j1" (.complete ⟨true, [], 0, 0, 0, "", ""⟩ "")])

theorem completed_keepsLaw : completedRun.length = 3 ∧ ∀ e ∈ completedRun, KeepsLaw id e.before e.label.2 e.after := by
  refine ⟨rfl, (run_keepsLaw (idleWorld_run _)).mpr ?_⟩
  intro e he
  simp only [heldCalls, List.cons_append, List.nil_append, World.taken, List.mem_cons, List.not_mem_nil, or_false] at he
  rcases he with rfl | rfl | rfl
  · intro existing hexisting
    cases hexisting
  · intro job hjob _
    obtain rfl := List.mem_singleton.mp hjob
    exact ⟨by decide, by decide, rfl⟩
  · intro job hjob _
    obtain rfl := List.mem_singleton.mp hjob
    exact .inr ⟨by decide, rfl, rfl⟩

/-- The worker has the job of the first state, when the project is edited and its new state enqueued. -/
def overtaken : World Plain := idleWorld.execAll id 0 (heldCalls ++ [.edit ("b", "2"), .enqueue "run" [] "j2"])

theorem overtaken_superseded : ∃ job ∈ overtaken.store.rows, job.jobId = "j1" ∧ job.status = .superseded := by decide +kernel

theorem overtaken_latest : Latest overtaken := by
  have hlatest : ∀ job ∈ overtaken.store.rows, job.status.active = true → overtaken.lastEnqueued = some job.candidateId := by
    decide +kernel
  exact hlatest

/-- The worker defers its job, which is superseded, and both jobs are pending. -/
theorem deferred_revives : ¬ ∀ (trace : List (Taken (World Plain) (ℚ × Call Plain))) (w : World Plain),
    System.Run (queue id ("a", "1")) trace w → ∀ e ∈ trace, KeepsLaw id e.before e.label.2 e.after := by
  intro hall
  have hkeeps := hall _ _ ((idleWorld_run _).step (l := (0, .update "j1" (.defer "preempted"))) ⟨le_rfl, rfl⟩) ⟨overtaken, _, _⟩
    (List.mem_append_right _ (List.mem_singleton_self _))
  obtain ⟨job, hjob, hid, hsuperseded⟩ := overtaken_superseded
  exact ((exec_keepsLaw overtaken_latest).mp hkeeps job hjob hid).1 hsuperseded

end AutoAgents.Release
