import Mathlib

/-! Publication of an accepted engine revision. The remote may advance between any two steps; a revision
that had to be merged with it is validated again before it is pushed. -/

namespace AutoAgents.Watch

/-- A commit with its history. A commit name is a hash, so it stands for what it hashes. -/
inductive Revision
  | initial (note : String)
  | commit (parent : Revision) (note : String)
  | merge (ours theirs : Revision) (note : String)
  deriving DecidableEq, Repr

/-- `git merge-base --is-ancestor`: a revision is its own ancestor. -/
def Revision.isAncestor (a : Revision) : Revision → Bool
  | initial note => a == initial note
  | commit parent note => a == commit parent note || a.isAncestor parent
  | merge ours theirs note => a == merge ours theirs note || a.isAncestor ours || a.isAncestor theirs

structure Verdict where
  ok : Bool
  report : String := ""
  deriving DecidableEq, Repr

/-- The outcome of `git push`: accepted, or refused with what it printed. -/
inductive Pushed
  | accepted
  | refused (stderr : String)
  deriving DecidableEq, Repr

/-- What the remote and the tools answer in one refresh. -/
structure Refresh where
  /-- `FETCH_HEAD`, or what `git fetch` printed. -/
  fetched : Except String Revision
  /-- The message of the merge commit, or what `git merge` printed and the paths in conflict. -/
  merged : Except (String × List String) String
  verdict : Revision → Verdict
  pushed : Revision → Pushed

/-- What `publish` returns. -/
inductive Publication
  | notRequested
  | published (revision : Revision) (remoteRevision : Option Revision)
  | pending (reason : String) (verification : Option Verdict)
  | conflict (reason : String) (paths : List String)
  deriving DecidableEq, Repr

/-- What `publish` has done, in order. -/
inductive Act
  | fetch (upstream : Revision)
  | conflict
  | validate (head : Revision) (verdict : Verdict)
  | push (revision : Revision) (outcome : Pushed)
  deriving DecidableEq, Repr

/-- The words by which a refused push is taken for a race. -/
def raceWords : List String := ["non-fast-forward", "fetch first", "rejected"]

def raced (stderr : String) : Bool := raceWords.any fun word => decide (word.toList <:+: stderr.toList)

/-- The merged `HEAD` of a refresh, once it is validated where it had to be merged. -/
def refreshHead (r : Refresh) (head upstream : Revision) : Except (Publication × List Act) (Revision × List Act) :=
  if upstream.isAncestor head = true then .ok (head, [])
  else
    match r.merged with
    | .error (reason, paths) => .error (.conflict reason paths, [.conflict])
    | .ok note =>
        let merged := Revision.merge head upstream note
        let verdict := r.verdict merged
        if verdict.ok = true then .ok (merged, [.validate merged verdict])
        else
          .error (.pending "Merged revision failed verification or review" (some verdict),
            [.validate merged verdict])

/-- The loop of `publish`, over the refreshes that are left. -/
def publishLoop : List Refresh → Revision → Publication × List Act
  | [], _ => (.pending "Remote advanced repeatedly; publication retained" none, [])
  | r :: refreshes, head =>
      match r.fetched with
      | .error stderr => (.pending stderr none, [])
      | .ok upstream =>
        if head.isAncestor upstream = true then (.published head (some upstream), [.fetch upstream])
        else
          match refreshHead r head upstream with
          | .error (result, acts) => (result, .fetch upstream :: acts)
          | .ok (revision, acts) =>
              let outcome := r.pushed revision
              let done := .fetch upstream :: acts ++ [.push revision outcome]
              match outcome with
              | .accepted => (.published revision none, done)
              | .refused stderr =>
                  if raced stderr = true then
                    let (result, later) := publishLoop refreshes revision
                    (result, done ++ later)
                  else (.pending stderr none, done)

/-- `publish`, from the revision its workspace starts with. -/
def publish (remote ref : String) (answers : Nat → Refresh) (maxRefreshes : Nat) (head : Revision) :
    Publication × List Act :=
  if remote = "" ∨ ref = "" then (.notRequested, [])
  else publishLoop ((List.range (maxRefreshes + 1)).map answers) head

/-! ### What is pushed -/

/-- A revision and its merges with fetched upstream revisions. -/
inductive MergedFrom (head : Revision) (acts : List Act) : Revision → Prop
  | started : MergedFrom head acts head
  | merged {revision upstream : Revision} {note : String} : MergedFrom head acts revision →
      Act.fetch upstream ∈ acts → MergedFrom head acts (.merge revision upstream note)

/-- The revision may be pushed: it is the one that was accepted, or a merge of it that was found good
as it stands. -/
def Publishable (head : Revision) (before : List Act) (revision : Revision) : Prop :=
  revision = head ∨
    MergedFrom head before revision ∧ ∃ verdict, verdict.ok = true ∧ Act.validate revision verdict ∈ before

/-- After this act the loop does nothing more. -/
def Act.last : Act → Bool
  | .fetch _ => false
  | .conflict => true
  | .validate _ verdict => !verdict.ok
  | .push _ .accepted => true
  | .push _ (.refused stderr) => !raced stderr

variable {head revision upstream : Revision} {acts before later : List Act} {result : Publication}
  {r : Refresh} {refreshes : List Refresh}

theorem MergedFrom.mono (h : MergedFrom head acts revision) (hsub : ∀ act ∈ acts, act ∈ later) :
    MergedFrom head later revision := by
  induction h with
  | started => exact .started
  | merged _ hfetch ih => exact .merged ih (hsub _ hfetch)

theorem Publishable.mono (h : Publishable head acts revision) (hsub : ∀ act ∈ acts, act ∈ later) :
    Publishable head later revision := by
  rcases h with rfl | ⟨hmerged, verdict, hok, hvalidated⟩
  · exact Or.inl rfl
  · exact Or.inr ⟨hmerged.mono hsub, verdict, hok, hsub _ hvalidated⟩

theorem Publishable.mergedFrom (h : Publishable head acts revision) : MergedFrom head acts revision := by
  rcases h with rfl | ⟨hmerged, -⟩
  · exact .started
  · exact hmerged

/-- A refresh that goes on leaves a revision that may be pushed, if the one before could be. -/
theorem refreshHead_ok {start : Revision} (hstart : Publishable start before head)
    (hfetch : Act.fetch upstream ∈ before) (h : refreshHead r head upstream = .ok (revision, acts)) :
    Publishable start (before ++ acts) revision ∧ ∀ act ∈ acts, act.last = false ∧ ∀ r o, act ≠ .push r o := by
  unfold refreshHead at h
  split at h
  · cases h
    refine ⟨by rwa [List.append_nil], fun act hact => absurd hact List.not_mem_nil⟩
  · split at h
    · cases h
    · next note _ =>
        simp only at h
        split at h
        · next hok =>
            cases h
            refine ⟨Or.inr ⟨?_, _, hok, ?_⟩, fun act hact => ?_⟩
            · exact (MergedFrom.merged hstart.mergedFrom hfetch).mono fun act hact => List.mem_append_left _ hact
            · exact List.mem_append_right _ (List.mem_singleton.mpr rfl)
            · obtain rfl := List.mem_singleton.mp hact
              simp [Act.last, hok]
        · cases h

/-- A refresh that gives up does nothing after the act that makes it. -/
theorem refreshHead_error (h : refreshHead r head upstream = .error (result, acts)) :
    ∃ act, acts = [act] ∧ act.last = true ∧ ∀ r o, act ≠ .push r o := by
  unfold refreshHead at h
  split at h
  · cases h
  · split at h
    · cases h
      exact ⟨_, rfl, rfl, by simp⟩
    · simp only at h
      split at h
      · cases h
      · next hok =>
          cases h
          exact ⟨_, rfl, by simpa [Act.last] using hok, by simp⟩

/-- Every push of a list of acts is of a publishable revision, and nothing follows a last act. -/
def Careful (start : Revision) (before acts : List Act) : Prop :=
  (∀ done revision outcome rest, acts = done ++ .push revision outcome :: rest →
    Publishable start (before ++ done) revision) ∧
  ∀ done act rest, acts = done ++ act :: rest → act.last = true → rest = []

theorem careful_nil {start : Revision} : Careful start before [] :=
  ⟨fun _ _ _ _ h => absurd h (by simp), fun _ _ _ h => absurd h (by simp)⟩

/-- An act that is no push, or a push of a publishable revision, comes first. -/
theorem Careful.cons {start : Revision} {act : Act} (h : Careful start (before ++ [act]) acts)
    (hpush : ∀ revision outcome, act = .push revision outcome → Publishable start before revision)
    (hlast : act.last = true → acts = []) : Careful start before (act :: acts) := by
  constructor
  · intro done revision outcome rest heq
    cases done with
    | nil =>
        obtain ⟨rfl, -⟩ := List.cons.inj heq
        rw [List.append_nil]
        exact hpush revision outcome rfl
    | cons first done =>
        obtain ⟨rfl, rfl⟩ := List.cons.inj heq
        have hlater := h.1 done revision outcome rest rfl
        rwa [List.append_assoc, List.singleton_append] at hlater
  · intro done final rest heq hfinal
    cases done with
    | nil =>
        obtain ⟨rfl, rfl⟩ := List.cons.inj heq
        exact hlast hfinal
    | cons first done =>
        obtain ⟨rfl, rfl⟩ := List.cons.inj heq
        exact h.2 done final rest rfl hfinal

/-- So do any number of acts that are neither pushes nor last. -/
theorem Careful.append {start : Revision} (h : Careful start (before ++ acts) later)
    (hacts : ∀ act ∈ acts, act.last = false ∧ ∀ r o, act ≠ .push r o) : Careful start before (acts ++ later) := by
  induction acts generalizing before with
  | nil => simpa using h
  | cons act acts ih =>
      have htail : Careful start (before ++ [act]) (acts ++ later) := by
        apply ih
        · simpa [List.append_assoc] using h
        · exact fun other hother => hacts other (List.mem_cons_of_mem _ hother)
      obtain ⟨hlast, hpush⟩ := hacts act List.mem_cons_self
      apply htail.cons
      · exact fun r o heq => absurd heq (hpush r o)
      · intro hact
        rw [hlast] at hact
        cases hact

theorem publishLoop_careful {start : Revision} (hstart : Publishable start before head) :
    Careful start before (publishLoop refreshes head).2 := by
  induction refreshes generalizing head before with
  | nil => exact careful_nil
  | cons r refreshes ih =>
      unfold publishLoop
      split
      · exact careful_nil
      · next upstream _ =>
          have hfetch : Act.fetch upstream ∈ before ++ [.fetch upstream] := List.mem_append_right _ List.mem_cons_self
          have hfirst : Publishable start (before ++ [.fetch upstream]) head :=
            hstart.mono fun act hact => List.mem_append_left _ hact
          split
          · exact careful_nil.cons (fun _ _ h => nomatch h) fun h => nomatch h
          · split
            · next result acts herror =>
                obtain ⟨act, rfl, -, hpush⟩ := refreshHead_error herror
                refine Careful.cons ?_ (fun _ _ h => nomatch h) fun h => nomatch h
                exact careful_nil.cons (fun revision outcome h => absurd h (hpush revision outcome)) fun _ => rfl
            · next revision acts hok =>
                obtain ⟨hready, hacts⟩ := refreshHead_ok hfirst hfetch hok
                -- what is done before the push, with the fetch in front
                have hbefore : ∀ act ∈ Act.fetch upstream :: acts, act.last = false ∧ ∀ r o, act ≠ .push r o := by
                  intro act hact
                  rcases List.mem_cons.mp hact with rfl | hact
                  · exact ⟨rfl, fun _ _ h => nomatch h⟩
                  · exact hacts act hact
                have hpush : Publishable start (before ++ Act.fetch upstream :: acts) revision := by
                  simpa [List.append_assoc] using hready
                -- and what follows it
                have hall : ∀ outcome later, Careful start ((before ++ Act.fetch upstream :: acts) ++
                    [.push revision outcome]) later → ((Act.push revision outcome).last = true → later = []) →
                    Careful start before (Act.fetch upstream :: acts ++ .push revision outcome :: later) := by
                  intro outcome later hlater hlast
                  apply Careful.append _ hbefore
                  apply hlater.cons _ hlast
                  rintro _ _ ⟨⟩
                  exact hpush
                simp only
                split
                · next haccepted =>
                    rw [haccepted]
                    exact hall .accepted [] careful_nil fun _ => rfl
                · next stderr hrefused =>
                    rw [hrefused]
                    split
                    · next hraced =>
                        have hnext := ih (hpush.mono fun act hact =>
                          List.mem_append_left [Act.push revision (.refused stderr)] hact)
                        have := hall (.refused stderr) _ hnext (by simp [Act.last, hraced])
                        simpa [List.append_assoc] using this
                    · exact hall (.refused stderr) [] careful_nil fun _ => rfl

end AutoAgents.Watch
