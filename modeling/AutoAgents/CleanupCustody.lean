import AutoAgents.CleanupCollect

/-! What the collectors leave. No sequence of collections takes what an unresolved operation needs, and commits that work
of a live workflow can ask for stay in the archive where each call of the sequence spares what holds them. -/

namespace AutoAgents

open Base
open Git (Commit Archive Ref Worktree)

variable {spell : OperationId → List Char}

/-! ### Calls -/

inductive Collection
  | collect (c : Sweep)
  | collectGit (fails : Option Nat)

def Collection.exec (spell : OperationId → List Char) (s : Custody) : Collection → Custody
  | collect c => s.collect spell c
  | collectGit fails => s.collectGit fails

def Custody.collectAll (spell : OperationId → List Char) (s : Custody) (calls : List Collection) : Custody :=
  calls.foldl (Collection.exec spell) s

/-- Whose work a folder is for. -/
def Place.worker : Place → Option String
  | domain work => some work
  | verification work => some work
  | workspace work => some work
  | _ => none

namespace Custody

/-! ### Registered as it should be -/

/-- A resource is registered for the work that its place is for; a docker item, where it is labelled, for its label. -/
def Registered (db : DB) (row : Artifact) : Prop :=
  (∀ work, row.place.worker = some work → row.owner = work) ∧
    (∀ id, row.place = .operation id → ∃ op, db.operations.find id = some op ∧ op.work = row.owner) ∧
    (∀ label, row.metadata.ownerLabel = some label → label = row.owner)

def Proper (s : Custody) : Prop := ∀ row ∈ s.artifacts.rows, Registered s.db row

/-- What belongs to an unresolved operation is as it was. -/
structure Spared (op : Operation) (s s' : Custody) : Prop where
  scratch : s'.files (.operation op.id) = s.files (.operation op.id)
  folders : ∀ place, place.worker = some op.work → s'.files place = s.files place
  docker : ∀ name item, s.docker name = some item → item.label = some op.work → s'.docker name = some item

theorem Spared.refl (op : Operation) (s : Custody) : Spared op s s := ⟨rfl, fun _ _ => rfl, fun _ _ h _ => h⟩

theorem Spared.trans {op : Operation} {a b c : Custody} (h : Spared op a b) (h' : Spared op b c) : Spared op a c where
  scratch := h'.scratch.trans h.scratch
  folders place hplace := (h'.folders place hplace).trans (h.folders place hplace)
  docker name item hitem hlabel := h'.docker name item (h.docker name item hitem hlabel) hlabel

/-! ### One row -/

variable {s : Custody} {row : Artifact} {c : Sweep}

theorem mem_pending {owner : String} {op : Operation} :
    op ∈ s.pending owner ↔ op ∈ s.db.operations.rows ∧ op.work = owner ∧ op.state.unresolved = true := by
  simp [pending]

/-- A row of an owner with an unresolved operation is passed over, unless it is scratch of another operation. -/
theorem passesOver_of_pending {op : Operation} (hop : op ∈ s.pending row.owner)
    (hscratch : row.place.kind = .scratch → row.place = .operation op.id) : s.passesOver spell row = true := by
  unfold passesOver
  split
  · next hkind =>
      refine List.any_eq_true.mpr ⟨op, hop, ?_⟩
      rw [hscratch hkind, List.isSuffixOf_iff_suffix]
      exact List.suffix_append _ _
  · have hne : (s.pending row.owner).isEmpty = false := by
      rw [List.isEmpty_eq_false_iff]
      exact List.ne_nil_of_mem hop
    simp [hne]

/-- What one turn of `collect` may do: the store, the references and the retained snapshots stay; a row changes only in its
state and loses its metadata; only what stands at the row's own place goes, and only if the row is not passed over. -/
structure Turned (spell : OperationId → List Char) (row : Artifact) (s s' : Custody) : Prop where
  db : s'.db = s.db
  retained : s'.retained = s.retained
  refs : s'.archive.refs = s.archive.refs
  artifacts : ∀ r' ∈ s'.artifacts.rows, ∃ r ∈ s.artifacts.rows, r'.place = r.place ∧ r'.owner = r.owner ∧
    (r'.metadata = r.metadata ∨ r'.metadata = {})
  files : ∀ place, place ≠ row.place ∨ s.passesOver spell row = true → s'.files place = s.files place
  worktrees : ∀ worktree ∈ s.archive.worktrees, worktree.place ≠ row.place ∨ s.passesOver spell row = true →
    worktree ∈ s'.archive.worktrees
  docker : ∀ name item, s.docker name = some item → s'.docker name = some item ∨
    s.passesOver spell row = false ∧ row.place.kind = .docker ∧ item.label = row.metadata.ownerLabel

theorem Turned.refl (s : Custody) : Turned spell row s s where
  db := rfl
  retained := rfl
  refs := rfl
  artifacts r hr := ⟨r, hr, rfl, rfl, .inl rfl⟩
  files _ _ := rfl
  worktrees _ h _ := h
  docker _ _ h := .inl h

theorem Turned.setState {s' : Custody} (h : Turned spell row s s') (place : Place) (state : ArtifactState) :
    Turned spell row s (s'.setState place state) where
  db := h.db
  retained := h.retained
  refs := h.refs
  artifacts := by
    intro r' hr'
    simp only [Custody.setState] at hr'
    rw [Table.mem_rows_modify] at hr'
    rcases hr' with ⟨r1, hr1, rfl⟩ | ⟨hr1, -⟩
    · obtain ⟨r, hr, hplace, howner, hmetadata⟩ := h.artifacts r1 (Table.find_some hr1).1
      refine ⟨r, hr, hplace, howner, ?_⟩
      simp only
      split
      · exact .inr rfl
      · exact hmetadata
    · exact h.artifacts r' hr1
  files := h.files
  worktrees := h.worktrees
  docker := h.docker

theorem removeDocker_turned (hpassed : s.passesOver spell row = false) (hkind : row.place.kind = .docker) (fault : Option Bool) :
    Turned spell row s (s.removeDocker fault row.metadata).1 := by
  unfold removeDocker
  split
  · next identity owner hidentity howner =>
      split
      · exact .refl s
      next item hitem =>
      split
      · exact .refl s
      next hlabel =>
      split
      · exact .refl s
      split
      · exact .refl s
      have hgone : Turned spell row s { s with docker := Function.update s.docker identity none } := by
        refine { Turned.refl s with docker := fun name other hother => ?_ }
        by_cases hname : name = identity
        · right
          rw [hname, hitem] at hother
          obtain rfl := Option.some.inj hother
          exact ⟨hpassed, hkind, by rw [howner]; simpa using hlabel⟩
        · left
          simpa [Function.update_of_ne hname] using hother
      simp only
      split
      · exact hgone
      · exact hgone
      · exact .refl s
  · exact .refl s

theorem mem_loseFolder {a : Archive RefName Place} {place : Place} {worktree : Worktree Place} (h : worktree ∈ a.worktrees)
    (hne : worktree.place ≠ place) : worktree ∈ (a.loseFolder place).worktrees :=
  List.mem_map.mpr ⟨worktree, h, if_neg hne⟩

theorem loseAt_turned (hpassed : s.passesOver spell row = false) : Turned spell row s (s.loseAt row.place) where
  db := rfl
  retained := rfl
  refs := rfl
  artifacts r hr := ⟨r, hr, rfl, rfl, .inl rfl⟩
  files place hplace := Function.update_of_ne (hplace.resolve_right (by simp [hpassed])) _ _
  worktrees worktree hworktree hplace := mem_loseFolder hworktree (hplace.resolve_right (by simp [hpassed]))
  docker _ _ h := .inl h

theorem removeAt_turned (hpassed : s.passesOver spell row = false) : Turned spell row s (s.removeAt row.place) := by
  refine { loseAt_turned hpassed with refs := ?_, worktrees := ?_ }
  · unfold removeAt
    simp only
    split <;> rfl
  · intro worktree hworktree hplace
    have hne := hplace.resolve_right (by simp [hpassed])
    unfold removeAt
    simp only
    split
    · exact List.mem_filter.mpr ⟨hworktree, by simpa using hne⟩
    · exact mem_loseFolder hworktree hne

theorem Turned.comp {s1 s2 : Custody} (h : Turned spell row s s1) (h' : Turned spell row s1 s2) : Turned spell row s s2 := by
  have hpassed : s1.passesOver spell row = s.passesOver spell row := by
    unfold passesOver pending
    rw [h.db]
  constructor
  · rw [h'.db, h.db]
  · rw [h'.retained, h.retained]
  · rw [h'.refs, h.refs]
  · intro r2 hr2
    obtain ⟨r1, hr1, hplace1, howner1, hmetadata1⟩ := h'.artifacts r2 hr2
    obtain ⟨r, hr, hplace, howner, hmetadata⟩ := h.artifacts r1 hr1
    refine ⟨r, hr, hplace1.trans hplace, howner1.trans howner, ?_⟩
    rcases hmetadata1 with hsame | hnone
    · rw [hsame]
      exact hmetadata
    · exact .inr hnone
  · intro place hplace
    rw [h'.files place (by rwa [hpassed]), h.files place hplace]
  · intro worktree hworktree hplace
    exact h'.worktrees worktree (h.worktrees worktree hworktree hplace) (by rwa [hpassed])
  · intro name item hitem
    rcases h.docker name item hitem with hkept | hgone
    · rw [← hpassed]
      exact h'.docker name item hkept
    · exact .inr hgone

theorem sweepRow_turned (c : Sweep) (s : Custody) (row : Artifact) : Turned spell row s (s.sweepRow spell c row) := by
  unfold sweepRow
  split
  · exact .refl s
  next hpassed =>
  have hpassed : s.passesOver spell row = false := by simpa using hpassed
  split
  · next hkind =>
    have hdocker := removeDocker_turned hpassed hkind (c.fault row.place)
    split
    · next s1 hremoved =>
        rw [hremoved] at hdocker
        exact hdocker.setState _ _
    · next s1 hremoved =>
        rw [hremoved] at hdocker
        exact hdocker
  split
  · exact .refl s
  split
  · exact (Turned.refl s).setState _ _
  split
  · exact .refl s
  have hdeleting : Turned spell row s (s.setState row.place .deleting) := (Turned.refl s).setState _ _
  have hstill : (s.setState row.place .deleting).passesOver spell row = false := hpassed
  split
  · exact (hdeleting.comp (removeAt_turned hstill)).setState _ _
  · exact hdeleting.comp (loseAt_turned hstill)
  · exact hdeleting

/-! ### All rows -/

theorem Turned.spared {s' : Custody} {op : Operation} (h : Turned spell row s s') (hregistered : Registered s.db row)
    (hop : s.db.operations.find op.id = some op) (hunresolved : op.state.unresolved = true) : Spared op s s' := by
  obtain ⟨hfolder, hscratch, hlabel⟩ := hregistered
  have hmem := (Table.find_some hop).1
  constructor
  · apply h.files
    by_cases hplace : row.place = .operation op.id
    · right
      obtain ⟨other, hother, howner⟩ := hscratch op.id hplace
      obtain rfl := Option.some.inj (hop.symm.trans hother)
      exact passesOver_of_pending (mem_pending.mpr ⟨hmem, howner, hunresolved⟩) fun _ => hplace
    · exact .inl (Ne.symm hplace)
  · intro place hplace
    apply h.files
    by_cases heq : place = row.place
    · right
      subst heq
      have howner := hfolder _ hplace
      refine passesOver_of_pending (mem_pending.mpr ⟨hmem, howner.symm, hunresolved⟩) fun hkind => ?_
      cases hrow : row.place <;> rw [hrow] at hplace hkind <;> cases hplace <;> cases hkind
    · exact .inl heq
  · intro name item hitem hitemLabel
    rcases h.docker name item hitem with hkept | ⟨hpassed, hkind, hsame⟩
    · exact hkept
    · have howner := hlabel _ (hsame.symm.trans hitemLabel)
      rw [passesOver_of_pending (mem_pending.mpr ⟨hmem, howner, hunresolved⟩) fun hscratch => by
        rw [hkind] at hscratch
        cases hscratch] at hpassed
      cases hpassed

/-- A loop over rows. -/
structure Looped (spell : OperationId → List Char) (rows : List Artifact) (s s' : Custody) : Prop where
  db : s'.db = s.db
  retained : s'.retained = s.retained
  refs : s'.archive.refs = s.archive.refs
  artifacts : ∀ r' ∈ s'.artifacts.rows, ∃ r ∈ s.artifacts.rows, r'.place = r.place ∧ r'.owner = r.owner ∧
    (r'.metadata = r.metadata ∨ r'.metadata = {})
  worktrees : ∀ worktree ∈ s.archive.worktrees, (∀ row ∈ rows, worktree.place = row.place → s.passesOver spell row = true) →
    worktree ∈ s'.archive.worktrees
  spared : ∀ op, s.db.operations.find op.id = some op → op.state.unresolved = true → (∀ row ∈ rows, Registered s.db row) →
    Spared op s s'

theorem sweepRows_looped (c : Sweep) (s : Custody) (rows : List Artifact) : Looped spell rows s (s.sweepRows spell c rows) := by
  induction rows generalizing s with
  | nil => exact ⟨rfl, rfl, rfl, fun r hr => ⟨r, hr, rfl, rfl, .inl rfl⟩, fun _ h _ => h, fun op _ _ _ => .refl op s⟩
  | cons row rest ih =>
      unfold sweepRows
      split
      · exact ⟨rfl, rfl, rfl, fun r hr => ⟨r, hr, rfl, rfl, .inl rfl⟩, fun _ h _ => h, fun op _ _ _ => .refl op s⟩
      have hturn := @sweepRow_turned spell c s row
      have hrest := ih (s.sweepRow spell c row)
      constructor
      · rw [hrest.db, hturn.db]
      · rw [hrest.retained, hturn.retained]
      · rw [hrest.refs, hturn.refs]
      · intro r2 hr2
        obtain ⟨r1, hr1, hplace1, howner1, hmetadata1⟩ := hrest.artifacts r2 hr2
        obtain ⟨r, hr, hplace, howner, hmetadata⟩ := hturn.artifacts r1 hr1
        refine ⟨r, hr, hplace1.trans hplace, howner1.trans howner, ?_⟩
        rcases hmetadata1 with hsame | hnone
        · rw [hsame]
          exact hmetadata
        · exact .inr hnone
      · intro worktree hworktree hpassed
        have hfirst : worktree ∈ (s.sweepRow spell c row).archive.worktrees := by
          apply hturn.worktrees worktree hworktree
          by_cases hplace : worktree.place = row.place
          · exact .inr (hpassed row List.mem_cons_self hplace)
          · exact .inl hplace
        refine hrest.worktrees worktree hfirst fun other hother hplace => ?_
        have hold := hpassed other (List.mem_cons_of_mem _ hother) hplace
        unfold passesOver pending at hold ⊢
        rwa [hturn.db]
      · intro op hop hunresolved hregistered
        have hfirst := hturn.spared (hregistered row List.mem_cons_self) hop hunresolved
        refine hfirst.trans (hrest.spared op (by rwa [hturn.db]) hunresolved ?_)
        rw [hturn.db]
        exact fun other hother => hregistered other (List.mem_cons_of_mem _ hother)

/-! ### What is asked for -/

/-- The source of the contract of a work item, and its candidates. -/
def named (s : Custody) (w : Work) : List Commit := ((s.db.contracts.find w.contract).map (·.source)).toList ++ candidates w

/-- The revisions that a workspace of the work item can be made from, or that can be adopted from it. -/
def asked (s : Custody) (w : Work) : List Commit :=
  s.named w ++ (s.retained w.id).toList.flatMap fun retained => [retained.head, retained.revision]

/-- The store says the same about works, contracts and what is unresolved. -/
structure SameStore (s s' : Custody) : Prop where
  works : s'.db.works = s.db.works
  contracts : s'.db.contracts = s.db.contracts
  retained : s'.retained = s.retained
  unresolved : (s'.db.operations.rows.filter (·.state.unresolved)).map (·.work) =
    (s.db.operations.rows.filter (·.state.unresolved)).map (·.work)
  operations : ∀ id op, s.db.operations.find id = some op → ∃ op', s'.db.operations.find id = some op' ∧ op'.work = op.work ∧
    (op.state.unresolved = true → op' = op)

theorem SameStore.of_db {s s' : Custody} (hdb : s'.db = s.db) (hretained : s'.retained = s.retained) : SameStore s s' where
  works := by rw [hdb]
  contracts := by rw [hdb]
  retained := hretained
  unresolved := by rw [hdb]
  operations id op hop := ⟨op, by rwa [hdb], rfl, fun _ => rfl⟩

theorem SameStore.trans {a b c : Custody} (h : SameStore a b) (h' : SameStore b c) : SameStore a c where
  works := h'.works.trans h.works
  contracts := h'.contracts.trans h.contracts
  retained := h'.retained.trans h.retained
  unresolved := h'.unresolved.trans h.unresolved
  operations := by
    intro id op hop
    obtain ⟨op', hop', hwork, hsame⟩ := h.operations id op hop
    obtain ⟨op'', hop'', hwork', hsame'⟩ := h'.operations id op' hop'
    refine ⟨op'', hop'', hwork'.trans hwork, fun hunresolved => ?_⟩
    obtain rfl := hsame hunresolved
    exact hsame' hunresolved

theorem SameStore.live {s s' : Custody} (h : SameStore s s') : s'.live = s.live := by
  unfold Custody.live
  rw [h.works, h.unresolved]

theorem SameStore.named {s s' : Custody} (h : SameStore s s') (w : Work) : s'.named w = s.named w := by
  unfold Custody.named
  rw [h.contracts]

theorem SameStore.asked {s s' : Custody} (h : SameStore s s') (w : Work) : s'.asked w = s.asked w := by
  unfold Custody.asked
  rw [h.named, h.retained]

/-- Compaction keeps what an operation is, and an unresolved one as it is. -/
theorem compacted_same (db : DB) (longResult longInputs : Operation → Bool) (op : Operation) :
    (DB.compacted db longResult longInputs op).work = op.work ∧ (DB.compacted db longResult longInputs op).state = op.state ∧
      (op.state.unresolved = true → DB.compacted db longResult longInputs op = op) := by
  unfold DB.compacted
  split
  · next h =>
      refine ⟨rfl, rfl, fun hunresolved => ?_⟩
      simp [hunresolved] at h
  · exact ⟨rfl, rfl, fun _ => rfl⟩

theorem compaction_same (s : Custody) (longResult longInputs : Operation → Bool) (artifacts : Table Artifact.place) :
    SameStore s { s with db := s.db.collect longResult longInputs, artifacts } where
  works := rfl
  contracts := rfl
  retained := rfl
  unresolved := by
    simp only [DB.collect, Table.rows_map, List.filter_map, List.map_map]
    have hstate : (fun op : Operation => op.state.unresolved) ∘ DB.compacted s.db longResult longInputs =
        fun op => op.state.unresolved := by
      funext op
      simp [(compacted_same s.db longResult longInputs op).2.1]
    rw [hstate]
    exact List.map_congr_left fun op _ => (compacted_same s.db longResult longInputs op).1
  operations := by
    intro id op hop
    obtain ⟨hwork, -, hsame⟩ := compacted_same s.db longResult longInputs op
    refine ⟨_, ?_, hwork, hsame⟩
    simp only [DB.collect]
    rw [Table.find_map, hop, Option.map_some]

theorem collectGit_same (fails : Option Nat) (s : Custody) : SameStore s (s.collectGit fails) := by
  unfold collectGit
  split
  · exact .of_db rfl rfl
  · exact .of_db rfl rfl

/-! ### The archive -/

/-- The reference is outside of the managed namespaces, or stands at a source or a candidate of a live workflow. -/
def KeptRef (s : Custody) (ref : Ref RefName) : Prop := ref.name.managed = false ∨ ∃ w ∈ s.live, ref.revision ∈ s.named w

theorem SameStore.keptRef {s s' : Custody} (h : SameStore s s') {ref : Ref RefName} : s'.KeptRef ref ↔ s.KeptRef ref := by
  unfold KeptRef
  simp only [h.live, h.named]

theorem mem_keep {keep : List Commit} (h : s.keep = .ok keep) (commit : Commit) :
    commit ∈ keep ↔ ∃ w ∈ s.live, commit ∈ s.named w := by
  unfold Custody.keep at h
  obtain ⟨sources, hsources, h⟩ := bind_ok.mp h
  obtain rfl := Except.ok.inj h
  have hsource : ∀ (w : Work) source, (do let contract ← s.db.contract w.contract; return contract.source : Except ControlError Commit) =
      .ok source ↔ ((s.db.contracts.find w.contract).map (·.source)) = some source := by
    intro w source
    unfold DB.contract
    cases s.db.contracts.find w.contract <;> simp [bind, Except.bind, pure, Except.pure]
  simp only [List.mem_append, List.mem_flatMap, named, Option.mem_toList]
  constructor
  · rintro (hmem | ⟨w, hw, hcandidate⟩)
    · obtain ⟨w, hw, hfound⟩ := mapM_mem hsources commit hmem
      exact ⟨w, hw, .inl ((hsource w commit).mp hfound)⟩
    · exact ⟨w, hw, .inr hcandidate⟩
  · rintro ⟨w, hw, hmem | hcandidate⟩
    · obtain ⟨source, hsourceMem, hfound⟩ := mapM_mem_of_mem hsources w hw
      rw [hsource, hmem] at hfound
      obtain rfl := Option.some.inj hfound
      exact .inl hsourceMem
    · exact .inr ⟨w, hw, hcandidate⟩

/-- Once the revisions to keep are known, the archive holds after `collect_git` what a kept reference or a worktree that is
there holds. -/
theorem collectGit_holds {keep : List Commit} (h : s.keep = .ok keep) (commit : Commit) :
    (s.collectGit none).archive.Holds commit ↔
      (∃ ref ∈ s.archive.refs, s.KeptRef ref ∧ commit ∈ ref.revision.history) ∨
        ∃ worktree ∈ s.archive.worktrees, worktree.present = true ∧ commit ∈ worktree.head.history := by
  have hdrop : ∀ ref : Ref RefName, (ref.name.managed && !keep.contains ref.revision) = false ↔ s.KeptRef ref := by
    intro ref
    unfold KeptRef
    rw [← mem_keep h]
    simp only [Bool.and_eq_false_iff, Bool.not_eq_false', List.contains_iff_mem]
  unfold collectGit
  rw [h]
  simp only [if_true]
  rw [Git.Archive.holds_deleted_pruned]
  simp only [hdrop]

/-- A `collect_git` that git interrupts leaves no less. -/
theorem collectGit_fails (fails : Option Nat) {commit : Commit} (h : (s.collectGit none).archive.Holds commit) :
    (s.collectGit fails).archive.Holds commit := by
  cases fails with
  | none => exact h
  | some n =>
      unfold collectGit at h ⊢
      split at h
      · exact h
      · exact h.mono (Git.Archive.deleteRefs_subset _ _ (some n)) fun _ hworktree => (List.mem_filter.mp hworktree).1

/-! ### One call -/

/-- The resource at the place is one that `collect` takes: its row is selected, and not passed over. -/
def Exposed (spell : OperationId → List Char) (s : Custody) (place : Place) : Prop :=
  ∃ row ∈ s.artifacts.rows, row.place = place ∧ s.selected row = true ∧ s.passesOver spell row = false

/-- The call ends with `collect_git`. -/
def RunsGit : Collection → Prop
  | .collect c => c.gitGc = true
  | .collectGit _ => True

/-- The call takes resources. -/
def Takes : Collection → Prop
  | .collect _ => True
  | .collectGit _ => False

/-- Something holds the commit that the call spares: a reference, kept where the call collects commits; or a worktree,
there where the call collects commits, and not taken where the call takes resources. -/
def SparesHolder (spell : OperationId → List Char) (call : Collection) (s : Custody) (commit : Commit) : Prop :=
  (∃ ref ∈ s.archive.refs, commit ∈ ref.revision.history ∧ (RunsGit call → s.KeptRef ref)) ∨
    ∃ worktree ∈ s.archive.worktrees, commit ∈ worktree.head.history ∧ (RunsGit call → worktree.present = true) ∧
      (Takes call → ¬ Exposed spell s worktree.place)

/-- Each commit that is asked for, and held, has a holder that the call spares. -/
def Spares (spell : OperationId → List Char) (call : Collection) (s : Custody) : Prop :=
  ∀ w ∈ s.live, ∀ commit ∈ s.asked w, s.archive.Holds commit → SparesHolder spell call s commit

/-- The rows of the resources were registered already, with the same place and owner. -/
def SameRows (s s' : Custody) : Prop := ∀ r' ∈ s'.artifacts.rows, ∃ r ∈ s.artifacts.rows, r'.place = r.place ∧
  r'.owner = r.owner ∧ (r'.metadata = r.metadata ∨ r'.metadata = {})

theorem Proper.of_same {s s' : Custody} (h : s.Proper) (hstore : SameStore s s') (hrows : SameRows s s') : s'.Proper := by
  intro r' hr'
  obtain ⟨r, hr, hplace, howner, hmetadata⟩ := hrows r' hr'
  obtain ⟨hfolder, hscratch, hlabel⟩ := h r hr
  refine ⟨?_, ?_, ?_⟩
  · intro work hwork
    rw [hplace] at hwork
    rw [howner, hfolder work hwork]
  · intro id hid
    rw [hplace] at hid
    obtain ⟨op, hop, hwork⟩ := hscratch id hid
    obtain ⟨op', hop', hwork', -⟩ := hstore.operations id op hop
    exact ⟨op', hop', hwork'.trans (hwork.trans howner.symm)⟩
  · intro label hl
    rcases hmetadata with hsame | hnone
    · rw [hsame] at hl
      rw [hlabel label hl, howner]
    · rw [hnone] at hl
      cases hl

/-- What `collect` has when it turns to the archive. -/
def swept (spell : OperationId → List Char) (c : Sweep) (s : Custody) : Custody :=
  let done := s.sweepRows spell c (s.artifacts.rows.filter s.selected)
  { done with
    db := done.db.collect c.longResult c.longInputs
    artifacts := done.artifacts.filter fun row => !(row.state == .deleted && decide (row.created < c.now - 7 * 86400)) }

theorem collect_eq (c : Sweep) (s : Custody) :
    s.collect spell c = if c.gitGc = true then (swept spell c s).collectGit c.gitFails else swept spell c s := rfl

theorem swept_same (c : Sweep) (s : Custody) : SameStore s (swept spell c s) := by
  have hloop := @sweepRows_looped spell c s (s.artifacts.rows.filter s.selected)
  exact (SameStore.of_db hloop.db hloop.retained).trans (compaction_same _ _ _ _)

theorem collectGit_artifacts (fails : Option Nat) (s : Custody) :
    (s.collectGit fails).artifacts = s.artifacts ∧ (s.collectGit fails).files = s.files ∧
      (s.collectGit fails).docker = s.docker := by
  unfold collectGit
  split
  · exact ⟨rfl, rfl, rfl⟩
  · exact ⟨rfl, rfl, rfl⟩

theorem swept_rows (c : Sweep) (s : Custody) : SameRows s (swept spell c s) := fun r' hr' =>
  (@sweepRows_looped spell c s (s.artifacts.rows.filter s.selected)).artifacts r' (Table.mem_filter.mp hr').1

theorem swept_spared (c : Sweep) (hproper : s.Proper) {op : Operation} (hop : s.db.operations.find op.id = some op)
    (hunresolved : op.state.unresolved = true) : Spared op s (swept spell c s) :=
  -- what stands somewhere is not touched by the statements after the loop
  have hspared := (@sweepRows_looped spell c s (s.artifacts.rows.filter s.selected)).spared op hop hunresolved
    fun row hrow => hproper row (List.mem_of_mem_filter hrow)
  ⟨hspared.scratch, hspared.folders, hspared.docker⟩

theorem exec_same (call : Collection) (s : Custody) : SameStore s (call.exec spell s) := by
  cases call with
  | collectGit fails => exact collectGit_same fails s
  | collect c =>
      rw [Collection.exec, collect_eq]
      split
      · exact (swept_same c s).trans (collectGit_same _ _)
      · exact swept_same c s

theorem exec_proper (call : Collection) (hproper : s.Proper) : (call.exec spell s).Proper := by
  refine hproper.of_same (exec_same call s) ?_
  cases call with
  | collectGit fails =>
      intro r hr
      rw [Collection.exec, (collectGit_artifacts fails s).1] at hr
      exact ⟨r, hr, rfl, rfl, .inl rfl⟩
  | collect c =>
      rw [Collection.exec, collect_eq]
      split
      · intro r hr
        rw [(collectGit_artifacts _ _).1] at hr
        exact swept_rows c s r hr
      · exact swept_rows c s

theorem Spared.collectGit {op : Operation} {s' : Custody} (h : Spared op s s') (fails : Option Nat) :
    Spared op s (s'.collectGit fails) := by
  obtain ⟨-, hfiles, hdocker⟩ := collectGit_artifacts fails s'
  exact ⟨by rw [hfiles]; exact h.scratch, by rw [hfiles]; exact h.folders, by rw [hdocker]; exact h.docker⟩

theorem exec_spared (call : Collection) (hproper : s.Proper) {op : Operation} (hop : s.db.operations.find op.id = some op)
    (hunresolved : op.state.unresolved = true) : Spared op s (call.exec spell s) := by
  cases call with
  | collectGit fails => exact (Spared.refl op s).collectGit fails
  | collect c =>
      have hswept : Spared op s (swept spell c s) := swept_spared c hproper hop hunresolved
      rw [Collection.exec, collect_eq]
      split
      · exact hswept.collectGit _
      · exact hswept

theorem swept_worktree {c : Sweep} {worktree : Worktree Place} (h : worktree ∈ s.archive.worktrees)
    (hexposed : ¬ Exposed spell s worktree.place) : worktree ∈ (swept spell c s).archive.worktrees := by
  refine (@sweepRows_looped spell c s (s.artifacts.rows.filter s.selected)).worktrees worktree h fun row hrow hplace => ?_
  obtain ⟨hmem, hselected⟩ := List.mem_filter.mp hrow
  by_contra hpassed
  exact hexposed ⟨row, hmem, hplace.symm, hselected, by simpa using hpassed⟩

theorem swept_refs (c : Sweep) (s : Custody) : (swept spell c s).archive.refs = s.archive.refs :=
  (@sweepRows_looped spell c s (s.artifacts.rows.filter s.selected)).refs

theorem collectGit_keeps {fails : Option Nat} {commit : Commit}
    (h : (∃ ref ∈ s.archive.refs, commit ∈ ref.revision.history ∧ s.KeptRef ref) ∨
      ∃ worktree ∈ s.archive.worktrees, commit ∈ worktree.head.history ∧ worktree.present = true) :
    (s.collectGit fails).archive.Holds commit := by
  apply collectGit_fails
  cases hkeep : s.keep with
  | error e =>
      -- a contract is missing: nothing is deleted
      unfold collectGit
      rw [hkeep]
      rcases h with ⟨ref, href, hcommit, -⟩ | ⟨worktree, hworktree, hcommit, -⟩
      · exact .inl ⟨ref, href, hcommit⟩
      · exact .inr ⟨worktree, hworktree, hcommit⟩
  | ok keep =>
      rw [collectGit_holds hkeep]
      rcases h with ⟨ref, href, hcommit, hkept⟩ | ⟨worktree, hworktree, hcommit, hpresent⟩
      · exact .inl ⟨ref, href, hkept, hcommit⟩
      · exact .inr ⟨worktree, hworktree, hpresent, hcommit⟩

/-- What a call spares holds after it. -/
theorem exec_holds {call : Collection} {commit : Commit} (h : SparesHolder spell call s commit) :
    (call.exec spell s).archive.Holds commit := by
  cases call with
  | collectGit fails =>
      apply collectGit_keeps
      rcases h with ⟨ref, href, hcommit, hkept⟩ | ⟨worktree, hworktree, hcommit, hpresent, -⟩
      · exact .inl ⟨ref, href, hcommit, hkept trivial⟩
      · exact .inr ⟨worktree, hworktree, hcommit, hpresent trivial⟩
  | collect c =>
      rw [Collection.exec, collect_eq]
      split
      · next hgit =>
          apply collectGit_keeps
          rcases h with ⟨ref, href, hcommit, hkept⟩ | ⟨worktree, hworktree, hcommit, hpresent, hexposed⟩
          · exact .inl ⟨ref, by rwa [swept_refs], hcommit, (swept_same c s).keptRef.mpr (hkept hgit)⟩
          · exact .inr ⟨worktree, swept_worktree hworktree (hexposed trivial), hcommit, hpresent hgit⟩
      · rcases h with ⟨ref, href, hcommit, -⟩ | ⟨worktree, hworktree, hcommit, -, hexposed⟩
        · exact .inl ⟨ref, by rwa [swept_refs], hcommit⟩
        · exact .inr ⟨worktree, swept_worktree hworktree (hexposed trivial), hcommit⟩

/-! ### Sequences of calls -/

/-- Each call of the sequence spares the holders of what is asked for, as it finds them. -/
def SparesAll (spell : OperationId → List Char) : Custody → List Collection → Prop
  | _, [] => True
  | s, call :: rest => Spares spell call s ∧ SparesAll spell (call.exec spell s) rest

theorem collectAll_spared (calls : List Collection) {s : Custody} (hproper : s.Proper) {op : Operation}
    (hop : s.db.operations.find op.id = some op) (hunresolved : op.state.unresolved = true) :
    Spared op s (s.collectAll spell calls) := by
  induction calls generalizing s with
  | nil => exact .refl op s
  | cons call rest ih =>
      have hstore : SameStore s (call.exec spell s) := exec_same call s
      obtain ⟨op', hop', -, hsame⟩ := hstore.operations op.id op hop
      obtain rfl := hsame hunresolved
      exact (exec_spared call hproper hop hunresolved).trans (ih (exec_proper call hproper) hop')

theorem collectAll_holds (calls : List Collection) {s : Custody} (hspares : SparesAll spell s calls) {w : Work} (hw : w ∈ s.live)
    {commit : Commit} (hcommit : commit ∈ s.asked w) (hheld : s.archive.Holds commit) :
    (s.collectAll spell calls).archive.Holds commit := by
  induction calls generalizing s with
  | nil => exact hheld
  | cons call rest ih =>
      obtain ⟨hfirst, hrest⟩ := hspares
      have hsame : SameStore s (call.exec spell s) := exec_same call s
      exact ih hrest (by rwa [hsame.live]) (by rwa [hsame.asked]) (exec_holds (hfirst w hw commit hcommit hheld))

end Custody
end AutoAgents
