import AutoAgents.WatchStore

/-! The accounting of model calls over all interleavings of the supervising processes: one active call,
counters that never go back, a cancellation that holds until it is acknowledged, and one successor. -/

namespace AutoAgents.Watch

open Base Base.Table

variable {s t : Store} {call : Call}

/-! ### What one call does -/

theorem superseded_id (identity : String) (row : Job) : (row.superseded identity).id = row.id := rfl

/-- The store in which a job has a successor. -/
def Store.succeed (s : Store) (previous : String) {identity : String} {argv : List String} {cwd : String}
    {now : Nat} {row : Job} (fresh : s.jobs.find (row.successorOf identity argv cwd now).id = none) : Store :=
  Store.update { s with jobs := s.jobs.insert (row.successorOf identity argv cwd now) fresh } previous
    (Job.superseded identity) (superseded_id identity)

/-- How a call ends: what it has checked, and the store it leaves. -/
inductive Ends (s : Store) : Call → Store → Prop
  | retained {admission accepts} : Ends s (.admitJob admission accepts) s
  | admitted {admission : Admission} {accepts} (fresh : s.jobs.find admission.job.id = none) :
      Ends s (.admitJob admission accepts) { s with jobs := s.jobs.insert admission.job fresh }
  | saved {job state changes now row} : s.jobs.find job = some row →
      Ends s (.save job state changes now) (s.update job (Job.saved changes state now) fun _ => rfl)
  | reserved {job role maxCalls now row} : s.jobs.find job = some row → row.cancelRequested = false →
      row.activeCall = none → (∀ limit ∈ maxCalls, row.modelCalls < limit) →
      Ends s (.reserve job role maxCalls now) (s.update job (Job.reserved role now) fun _ => rfl)
  | settled {copy : Job} {result row active} : s.jobs.find copy.id = some row →
      row.activeCall = some active → copy.activeCall = some active →
      Ends s (.settle copy result) { s.update copy.id Job.settled (fun _ => rfl) with
        attempts := s.attempts.insertOrReplace ⟨copy.id, active.number, active, result⟩ }
  | replaced {previous identity argv cwd now alive} : Ends s (.successor previous identity argv cwd now alive) s
  | succeeded {previous identity argv cwd now row} : s.jobs.find previous = some row →
      row.activeCall = none → row.supersededBy = none →
      (fresh : s.jobs.find (row.successorOf identity argv cwd now).id = none) →
      Ends s (.successor previous identity argv cwd now false) (s.succeed previous fresh)
  | acknowledged {job now row} : s.jobs.find job = some row →
      Ends s (.acknowledgeResume job now) (s.update job (Job.acknowledged now) fun _ => rfl)

theorem Store.succeed_find {row : Job} {identity : String} {argv : List String} {cwd : String} {now : Nat}
    (hrow : s.jobs.find row.id = some row)
    (fresh : s.jobs.find (row.successorOf identity argv cwd now).id = none) :
    (s.succeed row.id fresh).jobs.find identity = some (row.successorOf identity argv cwd now) ∧
      (s.succeed row.id fresh).jobs.find row.id = some (row.superseded identity) := by
  have hne : identity ≠ row.id := by
    rintro rfl
    have hfree : s.jobs.find row.id = none := fresh
    rw [hrow] at hfree
    cases hfree
  have hnew := find_insert_self s.jobs (row.successorOf identity argv cwd now) fresh
  have hold : (s.jobs.insert (row.successorOf identity argv cwd now) fresh).find row.id = some row :=
    (find_insert _ _ fresh _).trans ((if_neg hne).trans hrow)
  constructor
  · exact (find_modify_ne _ (Job.superseded identity) (fun _ => rfl) hne).trans hnew
  · exact (find_modify_self _ row.id (Job.superseded identity) fun _ => rfl).trans (congrArg _ hold)

theorem Store.payload_ok {identity : String} {job : Job} :
    s.payload identity = .ok job ↔ s.jobs.find identity = some job := by
  unfold payload
  cases s.jobs.find identity with
  | none => simp
  | some row => simp

theorem Store.addJob_ok {job : Job} :
    s.addJob job = .ok t ↔ ∃ fresh, t = { s with jobs := s.jobs.insert job fresh } := by
  unfold addJob
  cases hins : s.jobs.insert? job with
  | none =>
      refine ⟨fun h => (nomatch h), fun ⟨fresh, _⟩ => ?_⟩
      have := insert?_eq_some.mpr ⟨fresh, rfl⟩
      rw [hins] at this
      cases this
  | some jobs =>
      obtain ⟨fresh, rfl⟩ := insert?_eq_some.mp hins
      simp only [Except.ok.injEq]
      exact ⟨fun h => ⟨fresh, h.symm⟩, fun ⟨_, h⟩ => h.symm⟩

theorem Call.exec_ok (h : call.exec s = .ok t) : Ends s call t := by
  cases call with
  | admitJob admission accepts =>
      have hadd : s.addJob admission.job = .ok t → Ends s (.admitJob admission accepts) t := by
        intro hadd
        obtain ⟨fresh, rfl⟩ := Store.addJob_ok.mp hadd
        exact .admitted fresh
      cases accepts with
      | none => exact hadd h
      | some accepts =>
          simp only [exec, Store.admitJob] at h
          split at h
          · cases h
            exact .retained
          · exact hadd h
  | save job state changes now =>
      obtain ⟨row, hrow, h⟩ := bind_ok.mp h
      cases h
      exact .saved (Store.payload_ok.mp hrow)
  | reserve job role maxCalls now =>
      simp only [exec, Store.reserve, bind_ok, guard_ok, pure_ok, Store.payload_ok] at h
      obtain ⟨row, hrow, hcancel, hactive, hlimit, rfl⟩ := h
      refine .reserved hrow (by simpa using hcancel) (by simpa using hactive) fun limit hmem => ?_
      by_contra hle
      exact hlimit ⟨limit, hmem, not_lt.mp hle⟩
  | settle copy result =>
      obtain ⟨row, hrow, h⟩ := bind_ok.mp h
      split at h
      · cases h
      · next active hactive =>
          rw [guard_ok] at h
          obtain ⟨hcopy, h⟩ := h
          cases h
          exact .settled (Store.payload_ok.mp hrow) hactive (not_not.mp hcopy).symm
  | successor previous identity argv cwd now alive =>
      simp only [exec, Store.successor, bind_ok, guard_ok, Store.payload_ok] at h
      obtain ⟨row, hrow, hactive, halive, h⟩ := h
      obtain rfl : alive = false := by simpa using halive
      split at h
      · obtain rfl := pure_ok.mp h
        exact .replaced
      · next hsuperseded =>
          simp only [guard_ok, bind_ok, pure_ok] at h
          obtain ⟨-, mid, hadd, rfl⟩ := h
          obtain ⟨fresh, rfl⟩ := Store.addJob_ok.mp hadd
          exact .succeeded hrow (by simpa using hactive) (by simpa using hsuperseded) fresh
  | acknowledgeResume job now =>
      obtain ⟨row, hrow, h⟩ := bind_ok.mp h
      cases h
      exact .acknowledged (Store.payload_ok.mp hrow)

/-! ### One job at two moments -/

/-- What the payload of a job may become by one call. -/
inductive Job.Moved : Call → Job → Job → Prop
  | same {call job} : Job.Moved call job job
  | saved {job : Job} {state changes now} : Job.Moved (.save job.id state changes now) job (job.saved changes state now)
  | reserved {job : Job} {role maxCalls now} : job.cancelRequested = false → job.activeCall = none →
      (∀ limit ∈ maxCalls, job.modelCalls < limit) →
      Job.Moved (.reserve job.id role maxCalls now) job (job.reserved role now)
  | settled {job copy : Job} {result active} : copy.id = job.id → job.activeCall = some active →
      copy.activeCall = some active → Job.Moved (.settle copy result) job job.settled
  | superseded {job : Job} {identity argv cwd now} : job.activeCall = none → job.supersededBy = none →
      Job.Moved (.successor job.id identity argv cwd now false) job (job.superseded identity)
  | acknowledged {job : Job} {now} : Job.Moved (.acknowledgeResume job.id now) job (job.acknowledged now)

/-- A job that a call adds: new, or the successor of a row. -/
def Store.Adds (s : Store) (call : Call) (job : Job) : Prop :=
  (∃ admission accepts, call = .admitJob admission accepts ∧ job = admission.job) ∨
    ∃ row identity argv cwd now, s.jobs.find row.id = some row ∧
      call = .successor row.id identity argv cwd now false ∧ row.supersededBy = none ∧ row.activeCall = none ∧
        job = row.successorOf identity argv cwd now

theorem Store.update_grown {N : Job → Prop} {M : Job → Job → Prop} {job : String} {f : Job → Job}
    {hf : ∀ job, (f job).id = job.id} (hM : ∀ job, M job job) (h : ∀ row, s.jobs.find job = some row → M row (f row)) :
    Grown N M s.jobs (s.update job f hf).jobs := Grown.modify job hf hM h

/-- Every call moves the jobs that are there, and adds at most one. -/
theorem Ends.grown (h : Ends s call t) : Grown (s.Adds call) (Job.Moved call) s.jobs t.jobs := by
  have hsame : ∀ job, Job.Moved call job job := fun _ => .same
  cases h with
  | retained => exact Grown.refl hsame _
  | replaced => exact Grown.refl hsame _
  | @admitted admission accepts fresh => exact Grown.insert _ hsame (Or.inl ⟨admission, accepts, rfl, rfl⟩) fresh
  | @saved job state changes now row hrow =>
      refine Store.update_grown hsame fun row hfind => ?_
      obtain rfl := find_key hfind
      exact .saved
  | @reserved job role maxCalls now row hrow hcancel hactive hlimit =>
      refine Store.update_grown hsame fun row' hfind => ?_
      obtain rfl := Option.some.inj (hrow.symm.trans hfind)
      obtain rfl := find_key hfind
      exact .reserved hcancel hactive hlimit
  | @settled copy result row active hrow hactive hcopy =>
      refine Grown.modify (f := Job.settled) copy.id (fun _ => rfl) hsame fun row' hfind => ?_
      obtain rfl := Option.some.inj (hrow.symm.trans hfind)
      exact .settled (find_key hfind).symm hactive hcopy
  | @acknowledged job now row hrow =>
      refine Store.update_grown hsame fun row hfind => ?_
      obtain rfl := find_key hfind
      exact .acknowledged
  | @succeeded previous identity argv cwd now row hrow hactive hsuperseded fresh =>
      obtain rfl := find_key hrow
      have hadds : s.Adds (.successor row.id identity argv cwd now false) (row.successorOf identity argv cwd now) :=
        Or.inr ⟨row, identity, argv, cwd, now, hrow, rfl, hsuperseded, hactive, rfl⟩
      exact Grown.insert_modify (f := Job.superseded identity) (fun _ => rfl) hsame hadds fresh hrow
        (.superseded hactive hsuperseded)

/-- A later moment of a job: its counters have not gone back, and its place in a chain is the same. -/
structure Job.Later (job job' : Job) : Prop where
  id : job'.id = job.id
  attempts : job.attempts ≤ job'.attempts
  modelCalls : job.modelCalls ≤ job'.modelCalls
  predecessor : job'.predecessor = job.predecessor
  supersededBy : ∀ next, job.supersededBy = some next → job'.supersededBy = some next

theorem Job.Later.refl (job : Job) : Job.Later job job := ⟨rfl, le_rfl, le_rfl, rfl, fun _ h => h⟩

theorem Job.Later.trans {a b c : Job} (h : Later a b) (h' : Later b c) : Later a c where
  id := h'.id.trans h.id
  attempts := h.attempts.trans h'.attempts
  modelCalls := h.modelCalls.trans h'.modelCalls
  predecessor := h'.predecessor.trans h.predecessor
  supersededBy next hnext := h'.supersededBy next (h.supersededBy next hnext)

theorem Job.Moved.later {job job' : Job} (h : Job.Moved call job job') : Job.Later job job' := by
  cases h with
  | same | saved | settled | acknowledged => exact ⟨rfl, le_rfl, le_rfl, rfl, fun _ h => h⟩
  | reserved => exact ⟨rfl, Nat.le_add_right _ _, Nat.le_add_right _ _, rfl, fun _ h => h⟩
  | superseded _ hnone =>
      refine ⟨rfl, le_rfl, le_rfl, rfl, fun next hnext => ?_⟩
      rw [hnone] at hnext
      cases hnext

theorem Call.after_cases (call : Call) (s : Store) : call.after s = s ∨ Ends s call (call.after s) := by
  unfold Call.after
  split
  · next t hok => exact Or.inr (Call.exec_ok hok)
  · exact Or.inl rfl

/-- Every job is still there, at some later moment. -/
theorem step_later (hstep : storeSystem.step s call t) {id : String} {job : Job} (hjob : s.jobs.find id = some job) :
    ∃ job', t.jobs.find id = some job' ∧ Job.Moved call job job' := by
  obtain rfl := hstep
  rcases call.after_cases s with hsame | hends
  · rw [hsame]
    exact ⟨job, hjob, .same⟩
  · exact hends.grown.find hjob

/-! ### The store at one moment -/

/-- What holds of the store whatever the processes do. -/
structure Store.Sound (s : Store) : Prop where
  attempts : ∀ job ∈ s.jobs.rows, job.attempts ≤ job.modelCalls
  number : ∀ job ∈ s.jobs.rows, ∀ active ∈ job.activeCall, active.number = job.modelCalls
  named : ∀ job ∈ s.jobs.rows, ∀ next, job.supersededBy = some next →
    ∃ row, s.jobs.find next = some row ∧ row.predecessor = some job.id
  owned : ∀ job ∈ s.jobs.rows, ∀ previous, job.predecessor = some previous →
    ∃ row, s.jobs.find previous = some row ∧ row.supersededBy = some job.id
  receipts : ∀ attempt ∈ s.attempts.rows, ∃ job, s.jobs.find attempt.job = some job ∧
    attempt.number ≤ job.modelCalls ∧ ∀ active ∈ job.activeCall, attempt.number < active.number

/-- The jobs of the store after a call: each has moved, or is new under a free identity. -/
theorem Ends.mem (h : Ends s call t) {job' : Job} (hjob' : job' ∈ t.jobs.rows) :
    (∃ job ∈ s.jobs.rows, Job.Moved call job job') ∨ (s.Adds call job' ∧ s.jobs.find job'.id = none) := by
  rcases h.grown.mem_fresh hjob' with ⟨job, hjob, -, hmoved⟩ | hnew
  · exact Or.inl ⟨job, hjob, hmoved⟩
  · exact Or.inr hnew

/-- A new job belongs to no chain yet but as the successor it was made for. -/
theorem Store.Adds.supersededBy {job : Job} (h : s.Adds call job) : job.supersededBy = none ∧ job.activeCall = none := by
  rcases h with ⟨admission, accepts, -, rfl⟩ | ⟨row, identity, argv, cwd, now, -, -, -, -, rfl⟩ <;> exact ⟨rfl, rfl⟩

theorem Store.Sound.attempts_next (hs : s.Sound) (h : Ends s call t) :
    ∀ job ∈ t.jobs.rows, job.attempts ≤ job.modelCalls := by
  intro job' hjob'
  rcases h.mem hjob' with ⟨job, hjob, hmoved⟩ | ⟨hadds, -⟩
  · have hold := hs.attempts job hjob
    cases hmoved with
    | reserved =>
        simp only [Job.reserved]
        split <;> omega
    | _ => exact hold
  · rcases hadds with ⟨admission, accepts, -, rfl⟩ | ⟨row, identity, argv, cwd, now, hrow, -, -, -, rfl⟩
    · exact le_rfl
    · exact hs.attempts row (find_some hrow).1

theorem Store.Sound.number_next (hs : s.Sound) (h : Ends s call t) :
    ∀ job ∈ t.jobs.rows, ∀ active ∈ job.activeCall, active.number = job.modelCalls := by
  intro job' hjob' active hactive
  rcases h.mem hjob' with ⟨job, hjob, hmoved⟩ | ⟨hadds, -⟩
  · cases hmoved with
    | reserved =>
        cases hactive
        rfl
    | settled => cases hactive
    | _ => exact hs.number _ hjob active hactive
  · rw [hadds.supersededBy.2] at hactive
    cases hactive

theorem Store.Sound.named_next (hs : s.Sound) (h : Ends s call t) :
    ∀ job ∈ t.jobs.rows, ∀ next, job.supersededBy = some next →
      ∃ row, t.jobs.find next = some row ∧ row.predecessor = some job.id := by
  intro job' hjob' next hnext
  rcases h.mem hjob' with ⟨job, hjob, hmoved⟩ | ⟨hadds, -⟩
  · have hkept : job.supersededBy = some next →
        ∃ row, t.jobs.find next = some row ∧ row.predecessor = some job.id := by
      intro hold
      obtain ⟨row, hrow, hpredecessor⟩ := hs.named job hjob next hold
      obtain ⟨row', hrow', hmove⟩ := h.grown.find hrow
      exact ⟨row', hrow', hmove.later.predecessor.trans hpredecessor⟩
    cases hmoved with
    | @superseded _ identity argv cwd now hactive hnone =>
        obtain rfl := Option.some.inj hnext
        cases h with
        | replaced =>
            -- The store is as it was, so the row with the new name is the old one.
            have hself := eq_of_key_eq hjob hjob' rfl
            exact hkept (hself ▸ rfl)
        | succeeded hrow _ _ fresh =>
            have hsame := Option.some.inj (hrow.symm.trans (find_of_mem hjob))
            subst hsame
            exact ⟨_, (Store.succeed_find hrow fresh).1, rfl⟩
    | _ => exact hkept hnext
  · rw [hadds.supersededBy.1] at hnext
    cases hnext

theorem Store.Sound.owned_next (hs : s.Sound) (h : Ends s call t) :
    ∀ job ∈ t.jobs.rows, ∀ previous, job.predecessor = some previous →
      ∃ row, t.jobs.find previous = some row ∧ row.supersededBy = some job.id := by
  intro job' hjob' previous hprevious
  rcases h.mem hjob' with ⟨job, hjob, hmoved⟩ | ⟨hadds, hfree⟩
  · rw [hmoved.later.predecessor] at hprevious
    obtain ⟨row, hrow, hnext⟩ := hs.owned job hjob previous hprevious
    obtain ⟨row', hrow', hmove⟩ := h.grown.find hrow
    exact ⟨row', hrow', hmoved.later.id ▸ hmove.later.supersededBy _ hnext⟩
  · rcases hadds with ⟨admission, accepts, -, rfl⟩ | ⟨row, identity, argv, cwd, now, hrow, rfl, hnone, -, rfl⟩
    · cases hprevious
    · obtain rfl := Option.some.inj hprevious
      cases h with
      | replaced =>
          rw [find_of_mem hjob'] at hfree
          cases hfree
      | succeeded hfound _ _ fresh =>
          have hsame := Option.some.inj (hrow.symm.trans hfound)
          subst hsame
          exact ⟨_, (Store.succeed_find hrow fresh).2, rfl⟩

/-- A receipt is old, or that of the call that was active. -/
theorem Ends.attempts (h : Ends s call t) {attempt : Attempt} (hattempt : attempt ∈ t.attempts.rows) :
    attempt ∈ s.attempts.rows ∨ ∃ copy result row active, call = .settle copy result ∧
      s.jobs.find copy.id = some row ∧ row.activeCall = some active ∧ copy.activeCall = some active ∧
        attempt = ⟨copy.id, active.number, active, result⟩ := by
  cases h with
  | @settled copy result row active hrow hactive hcopy =>
      rcases mem_insertOrReplace.mp hattempt with rfl | ⟨hold, -⟩
      · exact Or.inr ⟨copy, result, row, active, rfl, hrow, hactive, hcopy, rfl⟩
      · exact Or.inl hold
  | _ => exact Or.inl hattempt

theorem Store.Sound.receipts_next (hs : s.Sound) (h : Ends s call t) :
    ∀ attempt ∈ t.attempts.rows, ∃ job, t.jobs.find attempt.job = some job ∧
      attempt.number ≤ job.modelCalls ∧ ∀ active ∈ job.activeCall, attempt.number < active.number := by
  intro attempt hattempt
  rcases h.attempts hattempt with hold | ⟨copy, result, row, active, rfl, hrow, hactive, -, rfl⟩
  · obtain ⟨job, hjob, hnumber, hbefore⟩ := hs.receipts attempt hold
    obtain ⟨job', hjob', hmoved⟩ := h.grown.find hjob
    refine ⟨job', hjob', hnumber.trans hmoved.later.modelCalls, fun active hactive => ?_⟩
    cases hmoved with
    | reserved =>
        cases hactive
        exact Nat.lt_succ_of_le hnumber
    | settled => cases hactive
    | _ => exact hbefore active hactive
  · obtain ⟨job', hjob', hmoved⟩ := h.grown.find hrow
    have hnumber := hs.number row (find_some hrow).1 active hactive
    refine ⟨job', hjob', hnumber ▸ hmoved.later.modelCalls, fun active' hactive' => ?_⟩
    cases h with
    | settled =>
        have hsettled := find_modify_self s.jobs copy.id Job.settled fun _ => rfl
        rw [hrow, Option.map_some] at hsettled
        obtain rfl := Option.some.inj (hsettled.symm.trans hjob')
        cases hactive'

theorem Store.Sound.next (hs : s.Sound) (h : Ends s call t) : t.Sound where
  attempts := hs.attempts_next h
  number := hs.number_next h
  named := hs.named_next h
  owned := hs.owned_next h
  receipts := hs.receipts_next h

theorem sound_empty : Store.empty.Sound where
  attempts _ h := absurd h List.not_mem_nil
  number _ h := absurd h List.not_mem_nil
  named _ h := absurd h List.not_mem_nil
  owned _ h := absurd h List.not_mem_nil
  receipts _ h := absurd h List.not_mem_nil

theorem sound (h : storeSystem.Reachable s) : s.Sound := by
  refine h.invariant (I := Store.Sound) ?_ ?_
  · rintro _ rfl
    exact sound_empty
  · rintro s call _ hs rfl
    rcases call.after_cases s with hsame | hends
    · rw [hsame]
      exact hs
    · exact hs.next hends

/-- A receipt is never overwritten. -/
theorem Ends.receipts_kept (hs : s.Sound) (h : Ends s call t) {attempt : Attempt} (ha : attempt ∈ s.attempts.rows) :
    attempt ∈ t.attempts.rows := by
  cases h with
  | @settled copy result row active hrow hactive hcopy =>
      refine mem_insertOrReplace.mpr (Or.inr ⟨ha, fun hkey => ?_⟩)
      obtain ⟨hjob, hnumber⟩ := Prod.ext_iff.mp hkey
      obtain ⟨job, hfind, -, hbefore⟩ := hs.receipts attempt ha
      rw [show attempt.job = copy.id from hjob, hrow] at hfind
      obtain rfl := Option.some.inj hfind
      have := hbefore active hactive
      exact absurd hnumber (Nat.ne_of_lt this)
  | _ => exact ha

/-! ### Calls in a run -/

/-- A reservation on a job that was granted. -/
def Call.Reserves (s : Store) (job : String) (call : Call) : Prop :=
  ∃ role maxCalls now t, call = .reserve job role maxCalls now ∧ call.exec s = .ok t

/-- A receipt of a job's call that was taken. -/
def Call.Settles (s : Store) (job : String) (active : ActiveCall) (call : Call) : Prop :=
  ∃ copy result t, call = .settle copy result ∧ copy.id = job ∧ copy.activeCall = some active ∧ call.exec s = .ok t

/-- A reservation goes to a job that no other has replaced. -/
def Call.OnLast (s : Store) : Call → Prop
  | .reserve job _ _ _ => ∀ row ∈ s.jobs.find job, row.supersededBy = none
  | _ => True

theorem Call.Reserves.row {job : String} (h : call.Reserves s job) :
    ∃ row, s.jobs.find job = some row ∧ row.cancelRequested = false ∧ row.activeCall = none := by
  obtain ⟨role, maxCalls, now, t, rfl, hok⟩ := h
  cases Call.exec_ok hok with
  | reserved hrow hcancel hactive _ => exact ⟨_, hrow, hcancel, hactive⟩

/-- A call that is active stays so until its receipt is taken. -/
theorem active_next {job : String} {active : ActiveCall}
    (h : ∃ row, s.jobs.find job = some row ∧ row.activeCall = some active) (hsettles : ¬ call.Settles s job active)
    (hstep : storeSystem.step s call t) : ∃ row, t.jobs.find job = some row ∧ row.activeCall = some active := by
  obtain ⟨row, hrow, hactive⟩ := h
  obtain rfl := hstep
  cases hok : call.exec s with
  | error e => exact ⟨row, by simpa only [Call.after, hok] using hrow, hactive⟩
  | ok t =>
      have hends := Call.exec_ok hok
      obtain ⟨row', hrow', hmoved⟩ := hends.grown.find hrow
      refine ⟨row', by simpa only [Call.after, hok] using hrow', ?_⟩
      cases hmoved with
      | reserved _ hnone _ =>
          rw [hactive] at hnone
          cases hnone
      | @settled _ copy result active' hid hfound hcopy =>
          obtain rfl := Option.some.inj (hactive.symm.trans hfound)
          exact absurd ⟨copy, result, t, rfl, hid.trans (find_key hrow), hcopy, hok⟩ hsettles
      | _ => exact hactive

/-- A cancelled job stays so until a resume is acknowledged. -/
theorem cancelled_next {job : String} (h : ∃ row, s.jobs.find job = some row ∧ row.cancelRequested = true)
    (hresume : ∀ now, call ≠ .acknowledgeResume job now) (hstep : storeSystem.step s call t) :
    ∃ row, t.jobs.find job = some row ∧ row.cancelRequested = true := by
  obtain ⟨row, hrow, hcancel⟩ := h
  obtain ⟨row', hrow', hmoved⟩ := step_later hstep hrow
  refine ⟨row', hrow', ?_⟩
  cases hmoved with
  | saved => simp only [Job.saved, hcancel, Bool.true_or]
  | acknowledged =>
      obtain rfl := find_key hrow
      exact absurd rfl (hresume _)
  | _ => exact hcancel

/-- A job that is in a state in which it is refused, while that lasts. -/
theorem refused {job : Job} {P : Job → Prop} {C : Store → Call → Store → Prop} {later : List (Taken Store Call)}
    (hrefuses : ∀ row, P row → row.cancelRequested = false → row.activeCall ≠ none)
    (hkeep : ∀ u call v, (∃ row, u.jobs.find job.id = some row ∧ P row) → C u call v → storeSystem.step u call v →
      ∃ row, v.jobs.find job.id = some row ∧ P row)
    (hjob : job ∈ s.jobs.rows) (hP : P job) (hlater : (storeSystem.beyond s).Run later t)
    (hmeets : System.Meets C later) : ∀ e ∈ later, ¬ e.label.Reserves e.before job.id := by
  intro e he hreserves
  have hkept : (∃ row, e.before.jobs.find job.id = some row ∧ P row) ∧ _ :=
    hlater.before_of_meets (I := fun u => ∃ row, u.jobs.find job.id = some row ∧ P row)
      (fun u hu => hu ▸ ⟨job, find_of_mem hjob, hP⟩) hkeep hmeets he
  obtain ⟨⟨row, hrow, hstill⟩, -⟩ := hkept
  obtain ⟨row', hrow', hlive, hnone⟩ := hreserves.row
  obtain rfl := Option.some.inj (hrow.symm.trans hrow')
  exact hrefuses row hstill hlive hnone

/-! ### Chains of successors -/

/-- A job and the job that took over from it. -/
def Store.Replaces (s : Store) (job next : Job) : Prop :=
  job ∈ s.jobs.rows ∧ next ∈ s.jobs.rows ∧ job.supersededBy = some next.id

/-- No job has counted more than the one that took over from it. -/
def Store.Inherited (s : Store) : Prop :=
  ∀ job next, s.Replaces job next → job.modelCalls ≤ next.modelCalls ∧ job.attempts ≤ next.attempts

/-- Only a reservation counts. -/
theorem Job.Moved.counted {job job' : Job} (h : Job.Moved call job job') :
    (∃ role maxCalls now, call = .reserve job.id role maxCalls now) ∨
      (job'.modelCalls = job.modelCalls ∧ job'.attempts = job.attempts) := by
  cases h with
  | reserved => exact Or.inl ⟨_, _, _, rfl⟩
  | _ => exact Or.inr ⟨rfl, rfl⟩

/-- A job has its successor already, or is given it by this call. -/
theorem Job.Moved.replaced {job job' : Job} {next : String} (h : Job.Moved call job job')
    (hnext : job'.supersededBy = some next) : job.supersededBy = some next ∨
      job.supersededBy = none ∧ ∃ argv cwd now, call = .successor job.id next argv cwd now false := by
  cases h with
  | superseded _ hnone =>
      obtain rfl := Option.some.inj hnext
      exact Or.inr ⟨hnone, _, _, _, rfl⟩
  | _ => exact Or.inl hnext

theorem Store.Inherited.next (hs : s.Sound) (hi : s.Inherited) (h : Ends s call t) (hlast : call.OnLast s) :
    t.Inherited := by
  rintro job' next' ⟨hjob', hnext', hreplaces⟩
  rcases h.mem hjob' with ⟨job, hjob, hmoved⟩ | ⟨hadds, -⟩
  · rcases hmoved.replaced hreplaces with hold | ⟨hnone, argv, cwd, now, rfl⟩
    · obtain ⟨hcalls, hattempts⟩ := hmoved.counted.resolve_left fun ⟨_, _, _, hreserve⟩ => by
        subst hreserve
        rw [hlast job (find_of_mem hjob)] at hold
        cases hold
      obtain ⟨next, hnext, -⟩ := hs.named job hjob _ hold
      obtain ⟨row, hrow, hlater⟩ := h.grown.find hnext
      obtain rfl := Option.some.inj ((find_of_mem hnext').symm.trans hrow)
      have hinherits := hi job next ⟨hjob, (find_some hnext).1, hlater.later.id ▸ hold⟩
      rw [hcalls, hattempts]
      exact ⟨hinherits.1.trans hlater.later.modelCalls, hinherits.2.trans hlater.later.attempts⟩
    · cases h with
      | replaced =>
          obtain rfl := eq_of_key_eq hjob hjob' hmoved.later.id.symm
          rw [hnone] at hreplaces
          cases hreplaces
      | succeeded hrow _ _ fresh =>
          obtain rfl := Option.some.inj ((find_of_mem hjob).symm.trans hrow)
          obtain ⟨hnew, hold⟩ := Store.succeed_find hrow fresh
          have hnextSame := Option.some.inj (hnew.symm.trans (find_of_mem hnext'))
          rw [eq_of_key_eq hjob' (find_some hold).1 hmoved.later.id, ← hnextSame]
          exact ⟨le_rfl, le_rfl⟩
  · rw [hadds.supersededBy.1] at hreplaces
    cases hreplaces

theorem inherited {trace : List (Taken Store Call)} (h : storeSystem.Run trace s)
    (hlast : System.Meets (fun s call _ => call.OnLast s) trace) : s.Inherited := by
  have hall : s.Sound ∧ s.Inherited := by
    refine h.invariant_of_meets (I := fun s => s.Sound ∧ s.Inherited) ?_ ?_ hlast
    · rintro _ rfl
      exact ⟨sound_empty, fun _ _ ⟨hjob, _⟩ => absurd hjob List.not_mem_nil⟩
    · rintro s call _ ⟨hs, hi⟩ honLast rfl
      rcases call.after_cases s with hsame | hends
      · rw [hsame]
        exact ⟨hs, hi⟩
      · exact ⟨hs.next hends, hi.next hs hends honLast⟩
  exact hall.2

/-- Along a whole chain. -/
theorem Store.Inherited.chain (hi : s.Inherited) {job last : Job} (h : Relation.ReflTransGen s.Replaces job last) :
    job.modelCalls ≤ last.modelCalls ∧ job.attempts ≤ last.attempts := by
  induction h with
  | refl => exact ⟨le_rfl, le_rfl⟩
  | tail _ hreplaces ih =>
      obtain ⟨hcalls, hattempts⟩ := hi _ _ hreplaces
      exact ⟨ih.1.trans hcalls, ih.2.trans hattempts⟩

/-! ### Dispatch accounting -/

/-- **Dispatch accounting.** In every run of the supervising processes no call of a job is reserved between the
reservation and the receipt of another; the counters of a job never go back, and no reservation exceeds the limit it was
given; a cancelled job reserves nothing before a resume is acknowledged; a job has at most one successor; a receipt is
that of the active call, and is never overwritten. Where only jobs that no other had replaced had reservations, the
counters do not decrease along successors either. -/
theorem dispatch_accounting {trace : List (Taken Store Call)} (h : storeSystem.Run trace s) :
    (∀ job ∈ s.jobs.rows, ∀ active ∈ job.activeCall, ∀ later t, (storeSystem.beyond s).Run later t →
      System.Meets (fun s call _ => ¬ call.Settles s job.id active) later →
        ∀ e ∈ later, ¬ e.label.Reserves e.before job.id) ∧
    (∀ e ∈ trace, ∀ job ∈ e.after.jobs.rows, ∃ row ∈ s.jobs.rows, row.id = job.id ∧
      job.modelCalls ≤ row.modelCalls ∧ job.attempts ≤ row.attempts) ∧
    (∀ e ∈ trace, ∀ job role limit now t, e.label = .reserve job role (some limit) now →
      e.label.exec e.before = .ok t → ∃ row ∈ t.jobs.rows, row.id = job ∧ row.modelCalls ≤ limit ∧
        row.attempts ≤ limit) ∧
    (∀ job ∈ s.jobs.rows, job.cancelRequested = true → ∀ later t, (storeSystem.beyond s).Run later t →
      System.Meets (fun _ call _ => ∀ now, call ≠ .acknowledgeResume job.id now) later →
        ∀ e ∈ later, ¬ e.label.Reserves e.before job.id) ∧
    (∀ job ∈ s.jobs.rows, ∀ next ∈ s.jobs.rows, ∀ next' ∈ s.jobs.rows, next.predecessor = some job.id →
      next'.predecessor = some job.id → next = next') ∧
    (∀ e ∈ trace, ∀ attempt ∈ e.after.attempts.rows, attempt ∈ s.attempts.rows ∧
      (attempt ∈ e.before.attempts.rows ∨ ∃ copy result, e.label = .settle copy result ∧
        (∃ row, e.before.jobs.find copy.id = some row ∧ row.activeCall = some attempt.call) ∧
          attempt = ⟨copy.id, attempt.call.number, attempt.call, result⟩)) ∧
    (System.Meets (fun s call _ => call.OnLast s) trace → ∀ job last,
      Relation.ReflTransGen s.Replaces job last →
        job.modelCalls ≤ last.modelCalls ∧ job.attempts ≤ last.attempts) := by
  have hsound := sound h.reachable
  refine ⟨?_, ?_, ?_, ?_, ?_, ?_, fun hlast job last => (inherited h hlast).chain⟩
  · intro job hjob active hactive later t hlater hmeets
    refine refused (P := fun row => row.activeCall = some active) ?_ ?_ hjob hactive hlater hmeets
    · intro row hstill _ hnone
      rw [hnone] at hstill
      cases hstill
    · exact fun _ _ _ hold hsettles hstep => active_next hold hsettles hstep
  · intro e he job hjob
    have hkept := h.lasts (P := fun u => ∃ row, u.jobs.find job.id = some row ∧ Job.Later job row)
      (fun _ _ _ ⟨row, hrow, hlater⟩ hstep => by
        obtain ⟨row', hrow', hmoved⟩ := step_later hstep hrow
        exact ⟨row', hrow', hlater.trans hmoved.later⟩) he ⟨job, find_of_mem hjob, Job.Later.refl job⟩
    obtain ⟨row, hrow, hlater⟩ := hkept
    exact ⟨row, (find_some hrow).1, hlater.id, hlater.modelCalls, hlater.attempts⟩
  · intro e he job role limit now t hcall hok
    have hbefore := sound (h.taken he).1
    have hends := Call.exec_ok hok
    have hafter := hbefore.next hends
    rw [hcall] at hends
    cases hends with
    | @reserved _ _ _ _ row hrow _ _ hlimit =>
        have hnew := find_modify_self e.before.jobs job (Job.reserved role now) fun _ => rfl
        rw [hrow, Option.map_some] at hnew
        obtain ⟨hmem, hid⟩ := find_some hnew
        have hcalls : (row.reserved role now).modelCalls ≤ limit := hlimit limit rfl
        exact ⟨_, hmem, hid, hcalls, (hafter.attempts _ hmem).trans hcalls⟩
  · intro job hjob hcancel later t hlater hmeets
    refine refused (P := fun row => row.cancelRequested = true) ?_ ?_ hjob hcancel hlater hmeets
    · intro row hstill hlive
      rw [hlive] at hstill
      cases hstill
    · exact fun _ _ _ hold hresume hstep => cancelled_next hold hresume hstep
  · intro job hjob next hnext next' hnext' hprevious hprevious'
    obtain ⟨row, hrow, hnamed⟩ := hsound.owned next hnext job.id hprevious
    obtain ⟨row', hrow', hnamed'⟩ := hsound.owned next' hnext' job.id hprevious'
    obtain rfl := Option.some.inj (hrow.symm.trans hrow')
    exact eq_of_key_eq hnext hnext' (Option.some.inj (hnamed.symm.trans hnamed'))
  · intro e he attempt hattempt
    obtain ⟨hreach, hstep⟩ := h.taken he
    have hlasting := h.lasts_of_meets (C := fun u _ _ => u.Sound) (P := fun u => attempt ∈ u.attempts.rows)
      (fun u call _ hold hu hstep => by
        obtain rfl := hstep
        rcases call.after_cases u with hsame | hends
        · rw [hsame]
          exact hold
        · exact hends.receipts_kept hu hold) (fun d hd => sound (h.taken hd).1) he hattempt
    refine ⟨hlasting, ?_⟩
    rw [show e.after = e.label.after e.before from hstep] at hattempt
    rcases e.label.after_cases e.before with hsame | hends
    · rw [hsame] at hattempt
      exact Or.inl hattempt
    · rcases hends.attempts hattempt with hold | ⟨copy, result, row, active, hcall, hrow, hactive, -, rfl⟩
      · exact Or.inl hold
      · exact Or.inr ⟨copy, result, hcall, ⟨row, hrow, hactive⟩, rfl⟩

/-- A launcher asks for a new job. -/
def firstAdmission : Admission := ⟨"job", ["run"], "project", "engine", "/", 0, none, none⟩

/-- A job is admitted, stops and is replaced; a process that still holds it then reserves a call. -/
def replacedCalls : List Call :=
  [.admitJob firstAdmission none, .save "job" (some .stopped) {} 1,
    .successor "job" "next" ["run"] "/" 2 false, .reserve "job" "implement" (some 1) 3]

/-- The store after a sequence of calls, and the transitions that lead to it. -/
def storeAfter (calls : List Call) : Store := calls.foldl (fun s call => call.after s) .empty

def storeTaken : Store → List Call → List (Taken Store Call)
  | _, [] => []
  | s, call :: calls => ⟨s, call, call.after s⟩ :: storeTaken (call.after s) calls

theorem run_calls {trace : List (Taken Store Call)} (h : storeSystem.Run trace s) (calls : List Call) :
    storeSystem.Run (trace ++ storeTaken s calls) (calls.foldl (fun s call => call.after s) s) := by
  induction calls generalizing s trace with
  | nil =>
      rw [storeTaken, List.append_nil]
      exact h
  | cons call calls ih =>
      have hrest := ih (h.step (l := call) rfl)
      rwa [List.append_assoc, List.singleton_append] at hrest

theorem storeAfter_run (calls : List Call) : storeSystem.Run (storeTaken .empty calls) (storeAfter calls) :=
  run_calls (.start rfl) calls

/-- One call is reserved before the job is replaced. -/
def settledCalls : List Call :=
  [.admitJob firstAdmission none, .reserve "job" "implement" (some 1) 1,
    .settle (firstAdmission.job.reserved "implement" 1) "ok", .save "job" (some .stopped) {} 2,
    .successor "job" "next" ["run"] "/" 3 false]

theorem dispatch_accounting_settled : ∃ job last, (storeAfter settledCalls).Replaces job last ∧
    job.modelCalls = 1 ∧ job.modelCalls ≤ last.modelCalls := by
  have hlast : System.Meets (fun s call _ => call.OnLast s) (storeTaken .empty settledCalls) := by
    intro e he
    simp only [settledCalls, storeTaken, List.mem_cons, List.not_mem_nil, or_false] at he
    rcases he with rfl | rfl | rfl | rfl | rfl
    · trivial
    · intro row hrow
      cases hrow
      rfl
    · trivial
    · trivial
    · trivial
  refine ⟨_, _, ⟨List.mem_cons_self, List.mem_cons_of_mem _ List.mem_cons_self, rfl⟩, rfl, ?_⟩
  exact ((dispatch_accounting (storeAfter_run settledCalls)).2.2.2.2.2.2 hlast _ _
    (Relation.ReflTransGen.single ⟨List.mem_cons_self, List.mem_cons_of_mem _ List.mem_cons_self, rfl⟩)).1

/-- A job that was replaced is granted another call: it has then counted more than its successor. -/
theorem replaced_job_reserves : ∃ trace s, storeSystem.Run trace s ∧ ∃ job last, s.Replaces job last ∧
    last.modelCalls < job.modelCalls ∧ last.attempts < job.attempts :=
  ⟨_, _, storeAfter_run replacedCalls, _, _, ⟨List.mem_cons_self, List.mem_cons_of_mem _ List.mem_cons_self, rfl⟩,
    Nat.zero_lt_one, Nat.zero_lt_one⟩

end AutoAgents.Watch
