import AutoAgents.CleanupCustody

/-! The states that collections meet: resources and references come from the calls that make them, and the business store
moves as its own calls let it. In every state that is reached, collections take nothing that unresolved work needs; and
`collect_git` leaves what work can ask for exactly where something that it spares holds it. -/

namespace AutoAgents

open Base
open Git (Commit Tree)

/-! ### Steps -/

inductive CustodyTurn
  | business (db : DB)
  | folder (place : Place) (owner : String) (identity : Nat) (now : Int)
  | dockerItem (name owner dockerId : String) (item : DockerItem) (identity : Nat) (now : Int)
  | snapshot (revision : Commit)
  | importRef (item : String) (revision : Commit)
  | ensure (w : Work) (source : Commit) (identity : Nat) (now : Int)
  | advance (work : String) (head : Commit)
  | candidate (work : String)
  | release (owner : String)
  | leave (work : String)
  | relocate (trees : String → Tree) (present : Place → Bool)
  | collection (call : Collection)

namespace Custody

/-- The foreign key of works to their contracts. -/
def Contracted (db : DB) : Prop := ∀ w ∈ db.works.rows, ∃ c, db.contracts.find w.contract = some c

/-- The head of a registered worktree. -/
def headAt (s : Custody) (place : Place) : Option Commit := (s.archive.worktrees.find? (·.place = place)).map (·.head)

/-- `retained.get("head") or work.get("context", {}).get("candidate", {}).get("revision") or source` -/
def materialized (s : Custody) (w : Work) (source : Commit) : Commit :=
  match s.retained w.id, w.context.candidate with
  | some retained, _ => retained.head
  | none, some candidate => candidate.revision
  | none, none => source

/-- `Workspaces.ensure`, where there is no workspace. -/
def ensure (s : Custody) (w : Work) (source : Commit) (identity : Nat) (now : Int) : Custody :=
  ({ s with
      archive := s.archive.prune.addWorktree (.workspace w.id) (s.materialized w source)
      files := Function.update s.files (.workspace w.id) (some identity) }).register (.workspace w.id) w.id identity [w.id] {} now

/-- The snapshot of one work: its bytes are committed on the head of its workspace, and kept as `refs/offline`. -/
def retain (trees : String → Tree) (s : Custody) (w : Work) : Custody :=
  match s.files (.workspace w.id), s.headAt (.workspace w.id) with
  | some _, some head =>
      let revision := Commit.after head (trees w.id) "snapshot: retained active bytes"
      { s with
        archive := s.archive.updateRef (.offline w.id) revision
        retained := Function.update s.retained w.id (some ⟨head, revision⟩) }
  | _, _ => s

/-- The copy that `snapshot` makes: the store, the archive with what it registers, and no workspace and no scratch. -/
def relocate (trees : String → Tree) (present : Place → Bool) (s : Custody) : Custody :=
  let kept := s.db.works.rows.foldl (retain trees) s
  { kept with
    archive := { kept.archive with worktrees := kept.archive.worktrees.map fun t => { t with present := present t.place } }
    files := fun place => match place with
      | .workspace _ => none
      | .operation _ => none
      | place => s.files place }

variable (spell : OperationId → List Char)

/-- What happens to a store between and in collections. -/
def step (s : Custody) : CustodyTurn → Custody → Prop
  | .business db, s' => DB.Advanced s.db db ∧ Contracted db ∧ s' = { s with db }
  | .folder place owner identity now, s' =>
      (place.kind = .cache ∧ place.worker = some owner ∨
        ∃ op, s.db.operations.find op.id = some op ∧ op.work = owner ∧ place = .operation op.id) ∧
      s' = ({ s with files := Function.update s.files place (some identity) }).register place owner identity [owner] {} now
  | .dockerItem name owner dockerId item identity now, s' =>
      s' = ({ s with docker := Function.update s.docker dockerId (some item) }).register (.docker name) owner identity [owner]
        { dockerId := some dockerId, ownerLabel := some owner } now
  | .snapshot revision, s' => s' = { s with archive := s.archive.updateRef (.snapshots revision) revision }
  | .importRef item revision, s' => s' = { s with archive := s.archive.updateRef (.imports item) revision }
  | .ensure w source identity now, s' => s.files (.workspace w.id) = none ∧ s' = s.ensure w source identity now
  | .advance work head, s' =>
      s' = { s with archive := { s.archive with
        worktrees := s.archive.worktrees.map fun t => if t.place = .workspace work then { t with head } else t } }
  | .candidate work, s' => ∃ head, s.headAt (.workspace work) = some head ∧
      s' = { s with archive := s.archive.updateRef (.candidates work) head }
  | .release owner, s' => s' = s.release owner
  | .leave work, s' => s' = s.removeAt (.workspace work)
  | .relocate trees present, s' => (∀ op ∈ s.db.operations.rows, op.state.unresolved = false) ∧ s' = s.relocate trees present
  | .collection call, s' => s' = call.exec spell s

/-- A store starts without registered resources and without retained snapshots, fresh or migrated. -/
def Start (s : Custody) : Prop := Contracted s.db ∧ s.artifacts = .empty ∧ ∀ work, s.retained work = none

end Custody

def custodySystem (spell : OperationId → List Char) : System Custody CustodyTurn where
  start := Custody.Start
  step := Custody.step spell

namespace Custody

variable {spell : OperationId → List Char} {s : Custody}

/-! ### What holds in every state -/

theorem Proper.register {place : Place} {owner : String} {identity : Nat} {refs : List String} {metadata : Metadata} {now : Int}
    (h : s.Proper) (hrow : Registered s.db { place, owner, identity, refs, metadata, created := now }) :
    (s.register place owner identity refs metadata now).Proper := by
  intro row hmem
  rcases Table.mem_insertOrReplace.mp hmem with rfl | ⟨hold, -⟩
  · exact hrow
  · exact h row hold

theorem Registered.advanced {db db' : DB} {row : Artifact} (h : Registered db row) (hadvanced : DB.Advanced db db') :
    Registered db' row := by
  obtain ⟨hfolder, hscratch, hlabel⟩ := h
  refine ⟨hfolder, fun id hid => ?_, hlabel⟩
  obtain ⟨op, hop, hwork⟩ := hscratch id hid
  obtain ⟨op', hop', hlater⟩ := hadvanced.operations id op hop
  exact ⟨op', hop', hlater.kept.work.trans hwork⟩

theorem retain_store (trees : String → Tree) (s : Custody) (w : Work) :
    (s.retain trees w).db = s.db ∧ (s.retain trees w).artifacts = s.artifacts := by
  unfold retain
  split
  · exact ⟨rfl, rfl⟩
  · exact ⟨rfl, rfl⟩

theorem relocate_store (trees : String → Tree) (present : Place → Bool) (s : Custody) :
    (s.relocate trees present).db = s.db ∧ (s.relocate trees present).artifacts = s.artifacts := by
  have hfold : ∀ works : List Work, (works.foldl (retain trees) s).db = s.db ∧
      (works.foldl (retain trees) s).artifacts = s.artifacts := by
    intro works
    induction works using List.reverseRec with
    | nil => exact ⟨rfl, rfl⟩
    | append_singleton works w ih =>
        rw [List.foldl_append, List.foldl_cons, List.foldl_nil, (retain_store _ _ _).1, (retain_store _ _ _).2]
        exact ih
  exact hfold _

/-- The rows are registered as they should be, and every work has its contract. -/
structure Sound (s : Custody) : Prop where
  proper : s.Proper
  contracted : Contracted s.db

theorem Sound.next {s' : Custody} {turn : CustodyTurn} (h : s.Sound) (hstep : step spell s turn s') : s'.Sound := by
  cases turn with
  | business db =>
      obtain ⟨hadvanced, hcontracted, rfl⟩ := hstep
      exact ⟨fun row hrow => (h.proper row hrow).advanced hadvanced, hcontracted⟩
  | folder place owner identity now =>
      obtain ⟨hplace, rfl⟩ := hstep
      refine ⟨Proper.register h.proper ⟨?_, ?_, nofun⟩, h.contracted⟩
      · intro work hwork
        rcases hplace with ⟨-, howner⟩ | ⟨op, -, -, rfl⟩
        · exact Option.some.inj (howner.symm.trans hwork)
        · cases hwork
      · intro id hid
        rcases hplace with ⟨hkind, -⟩ | ⟨op, hop, howner, rfl⟩
        · simp only at hid
          rw [hid] at hkind
          cases hkind
        · cases hid
          exact ⟨op, hop, howner⟩
  | dockerItem name owner dockerId item identity now =>
      obtain rfl := hstep
      exact ⟨Proper.register h.proper ⟨nofun, nofun, fun _ hlabel => (Option.some.inj hlabel).symm⟩, h.contracted⟩
  | snapshot revision => obtain rfl := hstep; exact ⟨h.proper, h.contracted⟩
  | importRef item revision => obtain rfl := hstep; exact ⟨h.proper, h.contracted⟩
  | ensure w source identity now =>
      obtain ⟨-, rfl⟩ := hstep
      exact ⟨Proper.register h.proper ⟨fun _ hwork => Option.some.inj hwork, nofun, nofun⟩, h.contracted⟩
  | advance work head => obtain rfl := hstep; exact ⟨h.proper, h.contracted⟩
  | candidate work => obtain ⟨head, -, rfl⟩ := hstep; exact ⟨h.proper, h.contracted⟩
  | release owner =>
      obtain rfl := hstep
      refine ⟨fun row hrow => ?_, h.contracted⟩
      obtain ⟨old, hold, rfl⟩ := List.mem_map.mp hrow
      split
      · exact h.proper old hold
      · exact h.proper old hold
  | leave work => obtain rfl := hstep; exact ⟨h.proper, h.contracted⟩
  | relocate trees present =>
      obtain ⟨-, rfl⟩ := hstep
      obtain ⟨hdb, hartifacts⟩ := relocate_store trees present s
      refine ⟨?_, by rw [hdb]; exact h.contracted⟩
      intro row hrow
      rw [hdb]
      rw [hartifacts] at hrow
      exact h.proper row hrow
  | collection call =>
      obtain rfl := hstep
      have hsame : SameStore s (call.exec spell s) := exec_same call s
      refine ⟨exec_proper call h.proper, ?_⟩
      unfold Contracted
      rw [hsame.works, hsame.contracts]
      exact h.contracted

theorem sound (h : (custodySystem spell).Reachable s) : s.Sound := by
  refine h.invariant ?_ fun _ _ _ hs hstep => hs.next hstep
  rintro s ⟨hcontracted, hartifacts, -⟩
  refine ⟨fun row hrow => ?_, hcontracted⟩
  rw [hartifacts] at hrow
  cases hrow

theorem keep_ok (h : Contracted s.db) : ∃ keep, s.keep = .ok keep := by
  unfold Custody.keep
  cases hsources : s.live.mapM (fun w => do
      let contract ← s.db.contract w.contract
      return contract.source : Work → Except ControlError Commit) with
  | ok sources => exact ⟨_, rfl⟩
  | error e =>
      obtain ⟨w, hw, herror⟩ := mapM_error hsources
      obtain ⟨c, hc⟩ := h w (List.mem_of_mem_filter hw)
      unfold DB.contract at herror
      rw [hc] at herror
      cases herror

/-- A reference stands at each source and each candidate of a live workflow, as it is when they are made. -/
def Anchored (s : Custody) : Prop := ∀ w ∈ s.live, ∀ commit ∈ s.named w, ∃ ref ∈ s.archive.refs, ref.revision = commit

/-- With such references, only a retained snapshot can be lost. -/
theorem Anchored.spares (h : s.Anchored) (fails : Option Nat)
    (hretained : ∀ w ∈ s.live, ∀ retained, s.retained w.id = some retained →
      SparesHolder spell (.collectGit fails) s retained.head ∧ SparesHolder spell (.collectGit fails) s retained.revision) :
    Spares spell (.collectGit fails) s := by
  intro w hw commit hcommit _
  rcases List.mem_append.mp hcommit with hnamed | hsnapshot
  · obtain ⟨ref, href, rfl⟩ := h w hw commit hnamed
    exact .inl ⟨ref, href, ref.revision.mem_history, fun _ => .inr ⟨w, hw, hnamed⟩⟩
  · obtain ⟨retained, hfound, hcommit⟩ := List.mem_flatMap.mp hsnapshot
    obtain ⟨hhead, hrevision⟩ := hretained w hw retained (Option.mem_toList.mp hfound)
    rcases List.mem_cons.mp hcommit with rfl | hcommit
    · exact hhead
    · obtain rfl := List.mem_singleton.mp hcommit
      exact hrevision

end Custody

/-- What any sequence of collections leaves, from any state that is reached. Nothing of an unresolved operation is
touched: not its scratch folder, no folder of its work, no docker item labelled for it. Where each call spares a holder
of what is asked for, every commit that work of a live workflow can ask for is still held; and one `collect_git` leaves
all of it held exactly if it spares a holder of each. -/
theorem collections_careful (spell : OperationId → List Char) {s : Custody} (h : (custodySystem spell).Reachable s) :
    (∀ calls op, op ∈ s.db.operations.rows → op.state.unresolved = true → Custody.Spared op s (s.collectAll spell calls)) ∧
    (∀ calls, Custody.SparesAll spell s calls → ∀ w ∈ s.live, ∀ commit ∈ s.asked w, s.archive.Holds commit →
      (s.collectAll spell calls).archive.Holds commit) ∧
    ((∀ w ∈ s.live, ∀ commit ∈ s.asked w, s.archive.Holds commit → (s.collectGit none).archive.Holds commit) ↔
      Custody.Spares spell (.collectGit none) s) := by
  have hsound := Custody.sound h
  refine ⟨?_, ?_, ?_⟩
  · intro calls op hop hunresolved
    exact Custody.collectAll_spared calls hsound.proper (Table.find_of_mem hop) hunresolved
  · intro calls hspares w hw commit hcommit hheld
    exact Custody.collectAll_holds calls hspares hw hcommit hheld
  · obtain ⟨keep, hkeep⟩ := Custody.keep_ok hsound.contracted
    constructor
    · intro hstill w hw commit hcommit hheld
      rcases (Custody.collectGit_holds hkeep commit).mp (hstill w hw commit hcommit hheld) with
        ⟨ref, href, hkept, hmem⟩ | ⟨worktree, hworktree, hpresent, hmem⟩
      · exact .inl ⟨ref, href, hmem, fun _ => hkept⟩
      · exact .inr ⟨worktree, hworktree, hmem, fun _ => hpresent, fun htakes => htakes.elim⟩
    · intro hspares w hw commit hcommit hheld
      have hcall : Custody.SparesHolder spell (.collectGit none) s commit := hspares w hw commit hcommit hheld
      exact Custody.exec_holds hcall

/-! ### A work item that is copied -/

/-- A fix is created. -/
def fixCall : Call := .createWorkflow "flow" "work" .fix "repair" (.initial ∅ "base") {} {} [] [] (some 2) 2

/-- A store without anything. -/
def emptyCustody : Custody where
  db := .empty
  artifacts := .empty
  files _ := none
  docker _ := none
  archive := {}
  retained _ := none

def storedCustody : Custody := { emptyCustody with db := fixCall.after .empty }

/-- Its source was admitted. -/
def admittedCustody : Custody :=
  { storedCustody with archive := storedCustody.archive.updateRef (.snapshots (.initial ∅ "base")) (.initial ∅ "base") }

/-- And it has a workspace. -/
def workingCustody : Custody := admittedCustody.ensure (fixRecord .ready 0) (.initial ∅ "base") 1 0

theorem workingCustody_reachable (spell : OperationId → List Char) : (custodySystem spell).Reachable workingCustody := by
  have hstart : (custodySystem spell).Reachable emptyCustody := ⟨[], .start ⟨fun _ hw => absurd hw List.not_mem_nil, rfl, fun _ => rfl⟩⟩
  have hcontracts : ((fixCall.after .empty).works.rows.all fun w =>
      ((fixCall.after .empty).contracts.find w.contract).isSome) = true := by decide +kernel
  have hstored : (custodySystem spell).step emptyCustody (.business (fixCall.after .empty)) storedCustody := by
    refine ⟨fixCall.after_advanced .empty, fun w hw => ?_, rfl⟩
    exact Option.isSome_iff_exists.mp (List.all_eq_true.mp hcontracts w hw)
  have hadmitted : (custodySystem spell).step storedCustody (.snapshot (.initial ∅ "base")) admittedCustody := rfl
  have hworking : (custodySystem spell).step admittedCustody (.ensure (fixRecord .ready 0) (.initial ∅ "base") 1 0)
      workingCustody := ⟨rfl, rfl⟩
  exact ((hstart.next hstored).next hadmitted).next hworking

/-- The copy of it that a snapshot makes. -/
def copiedCustody : Custody := workingCustody.relocate (fun _ => ∅) (fun _ => false)

theorem copiedCustody_reachable (spell : OperationId → List Char) : (custodySystem spell).Reachable copiedCustody := by
  have hoperations : (workingCustody.db.operations.rows.all fun op => !op.state.unresolved) = true := by decide +kernel
  have hcopied : (custodySystem spell).step workingCustody (.relocate (fun _ => ∅) fun _ => false) copiedCustody := by
    refine ⟨fun op hop => ?_, rfl⟩
    simpa using List.all_eq_true.mp hoperations op hop
  exact (workingCustody_reachable spell).next hcopied

theorem collections_careful_working :
    (workingCustody.collectAll (fun _ => []) [.collectGit none]).archive.Holds (.initial ∅ "base") := by
  have hanchored : workingCustody.Anchored := by
    unfold Custody.Anchored
    decide +kernel
  have hspares : Custody.Spares (fun _ => []) (.collectGit none) workingCustody := by
    refine hanchored.spares none fun w _ retained hretained => ?_
    have hnone : workingCustody.retained w.id = none := rfl
    rw [hnone] at hretained
    cases hretained
  have hheld : workingCustody.archive.Holds (.initial ∅ "base") := by
    unfold Git.Archive.Holds
    decide +kernel
  exact (collections_careful (fun _ => []) (workingCustody_reachable _)).2.1 [.collectGit none] ⟨hspares, trivial⟩
    (fixRecord .ready 0) (by decide +kernel) (.initial ∅ "base") (by decide +kernel) hheld

/-- `collect_git` deletes the bytes of work that were retained for the copy, before they are in a workspace. -/
theorem retained_snapshot_lost :
    ∃ s, (custodySystem fun _ => []).Reachable s ∧ ∃ w ∈ s.live, ∃ commit ∈ s.asked w,
      s.archive.Holds commit ∧ ¬ (s.collectGit none).archive.Holds commit := by
  refine ⟨copiedCustody, copiedCustody_reachable _, fixRecord .ready 0, by decide +kernel,
    .after (.initial ∅ "base") ∅ "snapshot: retained active bytes", by decide +kernel, ?_, ?_⟩
  · unfold Git.Archive.Holds
    decide +kernel
  · unfold Git.Archive.Holds
    decide +kernel

end AutoAgents
