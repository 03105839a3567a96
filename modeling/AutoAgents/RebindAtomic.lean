import AutoAgents.RebindBatch

/-! What the replacement of a batch leaves, whichever step fails. The files always go back; the rows of the store that were
written before the failure do not. -/

namespace AutoAgents.Rebind

open Base

variable {ρ τ δ : Type} [DecidableEq ρ] {e : Env ρ τ δ} {batch : Batch ρ δ} {files : ρ → Option τ} {records : ρ → Projection τ δ}

/-! ### Steps -/

theorem attempt_leaves {step : Step ρ} {torn act : State ρ τ δ → State ρ τ δ} {s : State ρ τ δ} :
    Leaves (e.attempt step torn act) s (fun _ t => e.fails step = false ∧ t = act s)
      (fun named t => e.fails step = true ∧ t = torn s ∧ named = []) := by
  unfold Env.attempt
  split
  · next hfails => exact Leaves.bind_iff.mpr (Leaves.modify_iff.mpr (Leaves.throw_iff.mpr ⟨hfails, rfl, rfl⟩))
  · next hfails => exact Leaves.modify_iff.mpr ⟨Bool.not_eq_true _ ▸ hfails, rfl⟩

/-- One step at most fails. -/
theorem fails_unique {step other : Step ρ} (hstep : e.fails step = true) (hother : e.fails other = true) : step = other := by
  rw [Env.fails, decide_eq_true_iff] at hstep hother
  exact Option.some.inj (hstep.symm.trans hother)

theorem fails_other {step other : Step ρ} (hstep : e.fails step = true) (hne : step ≠ other) : e.fails other = false := by
  rw [← Bool.not_eq_true]
  exact fun hother => hne (fails_unique hstep hother)

@[simp] theorem write_files (s : State ρ τ δ) (file other : File ρ) (text : Option τ) :
    (s.write file text).files other = if other = file then text else s.files other := by
  exact Function.update_apply s.files file text other

@[simp] theorem move_files (s : State ρ τ δ) (source target other : File ρ) :
    (s.move source target).files other = if other = source then none else if other = target then s.files source else s.files other := by
  rw [State.move, write_files, write_files]

theorem torn_files {file other : File ρ} (s : State ρ τ δ) (hother : other ≠ file) : (e.torn file s).files other = s.files other := by
  unfold Env.torn
  split
  · rw [write_files, if_neg hother]
  · rfl

theorem torn_rest (file : File ρ) (s : State ρ τ δ) :
    (e.torn file s).records = s.records ∧ (e.torn file s).staged = s.staged ∧ (e.torn file s).backups = s.backups ∧
      (e.torn file s).preserved = s.preserved ∧ (e.torn file s).named = s.named := by
  unfold Env.torn
  split <;> exact ⟨rfl, rfl, rfl, rfl, rfl⟩

/-! ### Staging, moving away and taking the places -/

def present (files : ρ → Option τ) (path : ρ) : Bool := (files path).isSome

/-- What the batch has for a path. -/
def Env.text (e : Env ρ τ δ) (batch : Batch ρ δ) (path : ρ) : Option τ :=
  (batch.entries.find? fun entry => entry.1 = path).map fun entry => e.codec.jsonBytes entry.2

theorem text_of_mem {path : ρ} {v : δ} (hmem : (path, v) ∈ batch.entries) : e.text batch path = some (e.codec.jsonBytes v) := by
  have hfind : batch.entries.find? (fun entry => entry.1 = path) = some (path, v) := by
    have hapart := batch.apart
    generalize batch.entries = entries at hmem hapart
    induction entries with
    | nil => cases hmem
    | cons entry entries ih =>
        rw [List.map_cons, List.nodup_cons] at hapart
        rcases List.mem_cons.mp hmem with rfl | hrest
        · simp
        · have hne : entry.1 ≠ path := fun heq => hapart.1 (List.mem_map.mpr ⟨_, hrest, heq.symm⟩)
          rw [List.find?_cons_of_neg (by simpa using hne)]
          exact ih hrest hapart.2
  rw [Env.text, hfind]
  rfl

/-- The files and the variables, with some paths staged, some moved away and some replaced. -/
structure Laid (e : Env ρ τ δ) (batch : Batch ρ δ) (files : ρ → Option τ) (records : ρ → Projection τ δ) (staged moved placed : List ρ)
    (s : State ρ τ δ) : Prop where
  target : ∀ p, s.files (.target p) = if p ∈ placed then e.text batch p else if p ∈ moved then none else files p
  beside : ∀ p, s.files (.staged p) = if p ∈ staged ∧ p ∉ placed then e.text batch p else none
  backup : ∀ p, s.files (.backup p) = if p ∈ moved then files p else none
  rows : s.records = records
  stagedNames : s.staged = staged
  backupNames : s.backups = moved.filter (present files)
  preserved : s.preserved = []
  named : s.named = []

/-- Every file that was there is still there or in its backup. -/
structure Recoverable (batch : Batch ρ δ) (files : ρ → Option τ) (s : State ρ τ δ) : Prop where
  backed : ∀ p ∈ s.backups, present files p = true ∧ s.files (.backup p) = files p
  kept : ∀ p ∈ batch.paths, present files p = true → p ∉ s.backups → s.files (.target p) = files p
  preserved : s.preserved = []
  named : s.named = []

theorem Laid.recoverable {staged moved placed : List ρ} {s : State ρ τ δ} (hlaid : Laid e batch files records staged moved placed s)
    (hplaced : ∀ p ∈ placed, p ∈ moved) : Recoverable batch files s := by
  refine ⟨?_, ?_, hlaid.preserved, hlaid.named⟩
  · intro p hp
    rw [hlaid.backupNames, List.mem_filter] at hp
    exact ⟨hp.2, by rw [hlaid.backup, if_pos hp.1]⟩
  · intro p _ hpresent hp
    rw [hlaid.backupNames, List.mem_filter, not_and] at hp
    have hmoved : p ∉ moved := fun hmem => hp hmem hpresent
    rw [hlaid.target, if_neg fun hmem => hmoved (hplaced p hmem), if_neg hmoved]

/-- A step that comes before the store is written. -/
def Step.early : Step ρ → Bool
  | .look _ | .stage _ | .probe _ | .backup _ | .commit _ => true
  | _ => false

/-- The failure of a step before the store is written. -/
def EarlyFailure (e : Env ρ τ δ) (batch : Batch ρ δ) (files : ρ → Option τ) (records : ρ → Projection τ δ) (s : State ρ τ δ) : Prop :=
  Recoverable batch files s ∧ s.records = records ∧ ∃ step, Step.early step = true ∧ e.fails step = true

theorem stageOne_leaves {done : List ρ} {path : ρ} {v : δ} {s : State ρ τ δ} (hmem : (path, v) ∈ batch.entries)
    (hlaid : Laid e batch files records done [] [] s) :
    Leaves (e.stageOne (path, v)) s (fun _ t => Laid e batch files records (done ++ [path]) [] [] t)
      (fun _ t => EarlyFailure e batch files records t) := by
  refine attempt_leaves.mono ?_ ?_
  · rintro _ t ⟨_, rfl⟩
    refine ⟨?_, ?_, ?_, hlaid.rows, ?_, hlaid.backupNames, hlaid.preserved, hlaid.named⟩
    · intro p
      simpa using hlaid.target p
    · intro p
      have hbeside := hlaid.beside p
      by_cases hp : p = path
      · subst hp
        simp [text_of_mem hmem]
      · simpa [hp] using hbeside
    · intro p
      simpa using hlaid.backup p
    · simp only [hlaid.stagedNames]
  · rintro _ t ⟨hfails, rfl, _⟩
    obtain ⟨hrows, _, hbackups, hpreserved, hnamed⟩ := torn_rest (e := e) (.staged path) s
    have hbefore := hlaid.recoverable fun _ hp => absurd hp List.not_mem_nil
    refine ⟨⟨?_, ?_, hpreserved.trans hlaid.preserved, hnamed.trans hlaid.named⟩, hrows.trans hlaid.rows, _, rfl, hfails⟩
    · intro p hp
      rw [torn_files s (by simp)]
      exact hbefore.backed p (hbackups ▸ hp)
    · intro p hmem hpresent hp
      rw [torn_files s (by simp)]
      exact hbefore.kept p hmem hpresent (hbackups ▸ hp)

theorem backupOne_leaves {staged done : List ρ} {path : ρ} {s : State ρ τ δ} (hnew : path ∉ done)
    (hlaid : Laid e batch files records staged done [] s) :
    Leaves (e.backupOne path) s (fun _ t => Laid e batch files records staged (done ++ [path]) [] t)
      (fun _ t => EarlyFailure e batch files records t) := by
  have hbefore := hlaid.recoverable fun _ hp => absurd hp List.not_mem_nil
  have htarget : s.files (.target path) = files path := by
    rw [hlaid.target, if_neg List.not_mem_nil, if_neg hnew]
  refine Leaves.bind (P := fun _ t => t = s) (attempt_leaves.mono ?_ ?_) ?_
  · rintro _ t ⟨_, rfl⟩
    rfl
  · rintro _ t ⟨hfails, rfl, _⟩
    exact ⟨hbefore, hlaid.rows, _, rfl, hfails⟩
  rintro _ t rfl
  refine Leaves.bind_iff.mpr (Leaves.get_iff.mpr ?_)
  split
  · next hthere =>
      rw [htarget] at hthere
      refine attempt_leaves.mono ?_ ?_
      · rintro _ t ⟨_, rfl⟩
        refine ⟨?_, ?_, ?_, hlaid.rows, hlaid.stagedNames, ?_, hlaid.preserved, hlaid.named⟩
        · intro p
          have hp := hlaid.target p
          by_cases heq : p = path <;> simp_all
        · intro p
          simpa using hlaid.beside p
        · intro p
          have hp := hlaid.backup p
          by_cases heq : p = path <;> simp_all
        · simp [hlaid.backupNames, present, hthere]
      · rintro _ t ⟨hfails, rfl, _⟩
        exact ⟨hbefore, hlaid.rows, _, rfl, hfails⟩
  · next hthere =>
      rw [htarget, Bool.not_eq_true, Option.isSome_eq_false_iff, Option.isNone_iff_eq_none] at hthere
      refine Leaves.pure_iff.mpr ⟨?_, hlaid.beside, ?_, hlaid.rows, hlaid.stagedNames, ?_, hlaid.preserved, hlaid.named⟩
      · intro p
        have hp := hlaid.target p
        by_cases heq : p = path <;> simp_all
      · intro p
        have hp := hlaid.backup p
        by_cases heq : p = path <;> simp_all
      · simp [hlaid.backupNames, present, hthere]

theorem commitOne_leaves {staged moved done : List ρ} {path : ρ} {s : State ρ τ δ} (hstaged : path ∈ staged) (hnew : path ∉ done)
    (hmoved : ∀ p ∈ path :: done, p ∈ moved) (hlaid : Laid e batch files records staged moved done s) :
    Leaves (e.commitOne path) s (fun _ t => Laid e batch files records staged moved (done ++ [path]) t)
      (fun _ t => EarlyFailure e batch files records t) := by
  refine attempt_leaves.mono ?_ ?_
  · rintro _ t ⟨_, rfl⟩
    refine ⟨?_, ?_, ?_, hlaid.rows, hlaid.stagedNames, hlaid.backupNames, hlaid.preserved, hlaid.named⟩
    · intro p
      have hp := hlaid.target p
      have hbeside := hlaid.beside path
      by_cases heq : p = path
      · subst heq
        simp [hbeside, hstaged, hnew]
      · simpa [heq] using hp
    · intro p
      have hp := hlaid.beside p
      by_cases heq : p = path
      · simp [heq]
      · simpa [heq] using hp
    · intro p
      simpa using hlaid.backup p
  · rintro _ t ⟨hfails, rfl, _⟩
    exact ⟨hlaid.recoverable fun p hp => hmoved p (List.mem_cons_of_mem _ hp), hlaid.rows, _, rfl, hfails⟩

/-! ### The records -/

/-- The rows of the store after some entries are written. -/
def Env.recordsAfter (e : Env ρ τ δ) (records : ρ → Projection τ δ) (done : List (ρ × δ)) : ρ → Projection τ δ :=
  done.foldl (fun rows entry => if e.managed entry.1 = true then Function.update rows entry.1 (.record (e.codec.canonical entry.2))
    else rows) records

theorem recordsAfter_snoc (records : ρ → Projection τ δ) (done : List (ρ × δ)) (entry : ρ × δ) :
    e.recordsAfter records (done ++ [entry]) = if e.managed entry.1 = true then
      Function.update (e.recordsAfter records done) entry.1 (.record (e.codec.canonical entry.2)) else e.recordsAfter records done := by
  rw [Env.recordsAfter, List.foldl_append]
  rfl

theorem recordsAfter_not_mem {done : List (ρ × δ)} {path : ρ} (hpath : path ∉ done.map Prod.fst) :
    e.recordsAfter records done path = records path := by
  induction done using List.reverseRecOn with
  | nil => rfl
  | append_singleton done entry ih =>
      rw [List.map_append, List.mem_append, not_or, List.map_singleton, List.mem_singleton] at hpath
      rw [recordsAfter_snoc]
      split
      · rw [Function.update_of_ne hpath.2, ih hpath.1]
      · exact ih hpath.1

theorem recordsAfter_mem {done : List (ρ × δ)} {path : ρ} {v : δ} (hapart : (done.map Prod.fst).Nodup) (hmem : (path, v) ∈ done)
    (hmanaged : e.managed path = true) : e.recordsAfter records done path = .record (e.codec.canonical v) := by
  induction done using List.reverseRecOn with
  | nil => cases hmem
  | append_singleton done entry ih =>
      rw [List.map_append, List.map_singleton, List.nodup_append] at hapart
      rw [recordsAfter_snoc]
      rcases List.mem_append.mp hmem with hdone | hlast
      · have hne : path ≠ entry.1 := hapart.2.2 _ (List.mem_map.mpr ⟨_, hdone, rfl⟩) _ (List.mem_singleton_self _)
        split
        · rw [Function.update_of_ne hne, ih hapart.1 hdone]
        · exact ih hapart.1 hdone
      · rw [List.mem_singleton] at hlast
        subst hlast
        rw [if_pos hmanaged, Function.update_self]

/-- Some entries have their rows, and none of their steps failed. -/
structure Projected (e : Env ρ τ δ) (batch : Batch ρ δ) (files : ρ → Option τ) (records : ρ → Projection τ δ) (done : List (ρ × δ))
    (s : State ρ τ δ) : Prop where
  rows : s.records = e.recordsAfter records done
  silent : ∀ entry ∈ done, e.managed entry.1 = true → e.fails (.save entry.1) = false ∧ e.fails (.publish entry.1) = false
  target : ∀ entry ∈ batch.entries, e.managed entry.1 = false → s.files (.target entry.1) = some (e.codec.jsonBytes entry.2)
  beside : ∀ p, s.files (.staged p) = none
  backup : ∀ p, s.files (.backup p) = if p ∈ batch.paths then files p else none
  stagedNames : s.staged = batch.paths
  backupNames : s.backups = batch.paths.filter (present files)
  preserved : s.preserved = []
  named : s.named = []

theorem Projected.recoverable {done : List (ρ × δ)} {s : State ρ τ δ} (hprojected : Projected e batch files records done s) :
    Recoverable batch files s := by
  refine ⟨?_, ?_, hprojected.preserved, hprojected.named⟩
  · intro p hp
    rw [hprojected.backupNames, List.mem_filter] at hp
    exact ⟨hp.2, by rw [hprojected.backup, if_pos hp.1]⟩
  · intro p hmem hpresent hp
    rw [hprojected.backupNames, List.mem_filter] at hp
    exact absurd ⟨hmem, hpresent⟩ hp

/-- The failure of a step that writes a record: the rows before it are written, and its own if its file is what failed. -/
def LateFailure (e : Env ρ τ δ) (batch : Batch ρ δ) (files : ρ → Option τ) (records : ρ → Projection τ δ) (s : State ρ τ δ) : Prop :=
  Recoverable batch files s ∧ ∃ done entry rest, batch.entries = done ++ entry :: rest ∧ e.managed entry.1 = true ∧
    (e.fails (.save entry.1) = true ∧ s.records = e.recordsAfter records done ∨
      e.fails (.publish entry.1) = true ∧ s.records = e.recordsAfter records (done ++ [entry]))

omit [DecidableEq ρ] in
theorem mem_paths {entry : ρ × δ} (hmem : entry ∈ batch.entries) : entry.1 ∈ batch.paths := List.mem_map.mpr ⟨_, hmem, rfl⟩

omit [DecidableEq ρ] in
theorem Recoverable.of_target {s t : State ρ τ δ} {path : ρ} (hrecoverable : Recoverable batch files s)
    (hbacked : present files path = true → path ∈ s.backups) (hfiles : ∀ file, file ≠ .target path → t.files file = s.files file)
    (hbackups : t.backups = s.backups) (hpreserved : t.preserved = s.preserved) (hnamed : t.named = s.named) :
    Recoverable batch files t := by
  refine ⟨?_, ?_, hpreserved.trans hrecoverable.preserved, hnamed.trans hrecoverable.named⟩
  · intro p hp
    rw [hfiles _ (by simp)]
    exact hrecoverable.backed p (hbackups ▸ hp)
  · intro p hmem hpresent hp
    have hne : p ≠ path := fun heq => hp (hbackups ▸ heq ▸ hbacked (heq ▸ hpresent))
    rw [hfiles _ (by simpa using hne)]
    exact hrecoverable.kept p hmem hpresent (hbackups ▸ hp)

theorem writeProjection_leaves {done rest : List (ρ × δ)} {entry : ρ × δ} {s : State ρ τ δ}
    (hsplit : batch.entries = done ++ entry :: rest) (hprojected : Projected e batch files records done s) :
    Leaves (e.writeProjection entry) s (fun _ t => Projected e batch files records (done ++ [entry]) t)
      (fun _ t => LateFailure e batch files records t) := by
  have hmem : entry ∈ batch.entries := hsplit ▸ List.mem_append_right _ List.mem_cons_self
  have hbacked : present files entry.1 = true → entry.1 ∈ s.backups := by
    intro hpresent
    rw [hprojected.backupNames]
    exact List.mem_filter.mpr ⟨mem_paths hmem, hpresent⟩
  unfold Env.writeProjection
  split
  · next hmanaged =>
      have hsnoc := recordsAfter_snoc (e := e) records done entry
      rw [if_pos hmanaged, ← hprojected.rows] at hsnoc
      refine Leaves.bind (P := fun _ t => e.fails (.save entry.1) = false ∧
        t = { s with records := e.recordsAfter records (done ++ [entry]) }) (attempt_leaves.mono ?_ ?_) ?_
      · rintro _ t ⟨hsave, rfl⟩
        rw [hsnoc]
        exact ⟨hsave, rfl⟩
      · rintro _ t ⟨hfails, rfl, _⟩
        exact ⟨hprojected.recoverable, done, entry, rest, hsplit, hmanaged, .inl ⟨hfails, hprojected.rows⟩⟩
      rintro _ t ⟨hsave, rfl⟩
      refine attempt_leaves.mono ?_ ?_
      · rintro _ t ⟨hpublish, rfl⟩
        refine ⟨rfl, ?_, ?_, ?_, ?_, hprojected.stagedNames, hprojected.backupNames, hprojected.preserved, hprojected.named⟩
        · intro other hother hmanaged'
          rcases List.mem_append.mp hother with hdone | hlast
          · exact hprojected.silent other hdone hmanaged'
          · rw [List.mem_singleton.mp hlast]
            exact ⟨hsave, hpublish⟩
        · intro other hother hplain
          have hne : other.1 ≠ entry.1 := by
            intro heq
            rw [heq, hmanaged] at hplain
            cases hplain
          simpa [hne] using hprojected.target other hother hplain
        · intro p
          simpa using hprojected.beside p
        · intro p
          simpa using hprojected.backup p
      · rintro _ t ⟨hfails, rfl, _⟩
        obtain ⟨hrows, _, hbackups, hpreserved, hnamed⟩ :=
          torn_rest (e := e) (.target entry.1) { s with records := e.recordsAfter records (done ++ [entry]) }
        refine ⟨?_, done, entry, rest, hsplit, hmanaged, .inr ⟨hfails, hrows⟩⟩
        exact hprojected.recoverable.of_target hbacked (fun file hfile => torn_files _ hfile) hbackups hpreserved hnamed
  · next hplain =>
      have hsnoc := recordsAfter_snoc (e := e) records done entry
      rw [if_neg hplain] at hsnoc
      refine Leaves.pure_iff.mpr { hprojected with rows := hprojected.rows.trans hsnoc.symm, silent := ?_ }
      intro other hother hmanaged
      rcases List.mem_append.mp hother with hdone | hlast
      · exact hprojected.silent other hdone hmanaged
      · rw [List.mem_singleton.mp hlast] at hmanaged
        exact absurd hmanaged hplain

/-! ### The batch -/

theorem body_leaves (e : Env ρ τ δ) (batch : Batch ρ δ) (files : ρ → Option τ) (records : ρ → Projection τ δ) :
    Leaves (e.body batch) (start files records) (fun _ t => Projected e batch files records batch.entries t)
      (fun _ t => EarlyFailure e batch files records t ∨ LateFailure e batch files records t) := by
  have hpaths (done rest : List ρ) (path : ρ) (hsplit : batch.paths = done ++ path :: rest) : path ∉ done := by
    have hapart : batch.paths.Nodup := batch.apart
    rw [hsplit, List.nodup_append] at hapart
    exact fun hmem => hapart.2.2 _ hmem _ List.mem_cons_self rfl
  refine Leaves.bind (P := fun _ t => Laid e batch files records batch.paths [] [] t) ?_ ?_
  · refine (Leaves.forM (I := fun done t => Laid e batch files records (done.map Prod.fst) [] [] t) ?_ ?_)
    · exact ⟨fun _ => by simp [start], fun _ => by simp [start], fun _ => by simp [start], rfl, rfl, rfl, rfl, rfl⟩
    · intro done entry rest t hsplit hlaid
      rw [List.map_append, List.map_singleton]
      exact (stageOne_leaves (hsplit ▸ List.mem_append_right _ List.mem_cons_self) hlaid).mono (fun _ _ h => h) fun _ _ h => .inl h
  intro _ t hlaid
  refine Leaves.bind (P := fun _ t => Laid e batch files records batch.paths batch.paths [] t) ?_ ?_
  · refine Leaves.forM (I := fun done t => Laid e batch files records batch.paths done [] t) hlaid ?_
    intro done path rest t hsplit hlaid
    exact (backupOne_leaves (hpaths done rest path hsplit) hlaid).mono (fun _ _ h => h) fun _ _ h => .inl h
  intro _ t hlaid
  refine Leaves.bind_iff.mpr (Leaves.get_iff.mpr ?_)
  rw [hlaid.stagedNames]
  refine Leaves.bind (P := fun _ t => Laid e batch files records batch.paths batch.paths batch.paths t) ?_ ?_
  · refine Leaves.forM (I := fun done t => Laid e batch files records batch.paths batch.paths done t) hlaid ?_
    intro done path rest t hsplit hlaid
    refine (commitOne_leaves ?_ (hpaths done rest path hsplit) ?_ hlaid).mono (fun _ _ h => h) fun _ _ h => .inl h
    · exact hsplit ▸ List.mem_append_right _ List.mem_cons_self
    · intro p hp
      rw [hsplit]
      rcases List.mem_cons.mp hp with rfl | hdone
      · exact List.mem_append_right _ List.mem_cons_self
      · exact List.mem_append_left _ hdone
  intro _ t hlaid
  refine Leaves.forM (I := fun done t => Projected e batch files records done t) ?_ ?_
  · refine ⟨hlaid.rows, fun _ hmem => absurd hmem List.not_mem_nil, ?_, ?_, hlaid.backup, hlaid.stagedNames, hlaid.backupNames,
      hlaid.preserved, hlaid.named⟩
    · intro entry hmem _
      rw [hlaid.target, if_pos (mem_paths hmem)]
      exact text_of_mem hmem
    · intro p
      rw [hlaid.beside, if_neg fun h => h.2 h.1]
  · intro done entry rest t hsplit hprojected
    exact (writeProjection_leaves hsplit hprojected).mono (fun _ _ h => h) fun _ _ h => .inr h

/-! ### The rollback -/

theorem recoverOne_leaves {path : ρ} {s : State ρ τ δ} (hworks : e.fails (.recover path) = false)
    (hbacked : path ∈ s.backups → present files path = true ∧ s.files (.backup path) = files path)
    (hkept : present files path = true → path ∉ s.backups → s.files (.target path) = files path) :
    Leaves (e.recoverOne (present files) path) s
      (fun _ t => t.records = s.records ∧ t.backups = s.backups ∧ t.named = s.named ∧ t.files (.target path) = files path ∧
        ∀ p, p ≠ path → t.files (.target p) = s.files (.target p) ∧ t.files (.backup p) = s.files (.backup p))
      (fun _ _ => False) := by
  refine Leaves.bind_iff.mpr (Leaves.get_iff.mpr ?_)
  split
  · refine attempt_leaves.mono ?_ ?_
    · rintro _ t ⟨_, rfl⟩
      by_cases hmem : path ∈ s.backups
      · obtain ⟨hpresent, hbackup⟩ := hbacked hmem
        have hthere : (s.files (.backup path)).isSome = true := hbackup ▸ hpresent
        simp only [hmem, hthere, and_self, if_true]
        refine ⟨rfl, rfl, rfl, ?_, ?_⟩
        · simpa using hbackup
        · intro p hp
          simp [hp]
      · simp only [hmem, false_and, if_false]
        by_cases hpresent : present files path = true
        · rw [if_neg (by simp [hpresent])]
          exact ⟨rfl, rfl, rfl, hkept hpresent hmem, fun _ _ => ⟨rfl, rfl⟩⟩
        · have habsent : files path = none := by simpa [present] using hpresent
          rw [if_pos (by simpa using hpresent)]
          refine ⟨rfl, rfl, rfl, ?_, ?_⟩
          · simp [habsent]
          · intro p hp
            simp [hp]
    · rintro _ t ⟨hfails, _, _⟩
      rw [hworks] at hfails
      cases hfails
  · next hskip =>
      rw [not_or, Bool.not_eq_false] at hskip
      exact Leaves.pure_iff.mpr ⟨rfl, rfl, rfl, hkept hskip.2 hskip.1, fun _ _ => ⟨rfl, rfl⟩⟩

theorem rollback_leaves {s : State ρ τ δ} (hworks : ∀ path, e.fails (.recover path) = false) (hrecoverable : Recoverable batch files s) :
    Leaves (e.rollback (present files) batch) s (fun _ _ => False)
      (fun named t => named = [] ∧ t.records = s.records ∧ ∀ p ∈ batch.paths, t.files (.target p) = files p) := by
  have hapart : batch.paths.reverse.Nodup := List.nodup_reverse.mpr batch.apart
  refine Leaves.bind (P := fun _ t => t.records = s.records ∧ t.named = [] ∧ ∀ p ∈ batch.paths, t.files (.target p) = files p) ?_ ?_
  · refine (Leaves.forM (E := fun _ _ => False) (I := fun done t => t.records = s.records ∧ t.backups = s.backups ∧ t.named = [] ∧
      (∀ p ∈ done, t.files (.target p) = files p) ∧
      ∀ p, p ∉ done → t.files (.target p) = s.files (.target p) ∧ t.files (.backup p) = s.files (.backup p)) ?_ ?_).mono ?_ ?_
    · exact ⟨rfl, rfl, hrecoverable.named, fun _ hp => absurd hp List.not_mem_nil, fun _ _ => ⟨rfl, rfl⟩⟩
    · rintro done path rest t hsplit ⟨hrows, hbackups, hnamed, hdone, hrest⟩
      have hnew : path ∉ done := by
        rw [hsplit, List.nodup_append] at hapart
        exact fun hmem => hapart.2.2 _ hmem _ List.mem_cons_self rfl
      have hmem : path ∈ batch.paths := List.mem_reverse.mp (hsplit ▸ List.mem_append_right _ List.mem_cons_self)
      obtain ⟨htarget, hbackup⟩ := hrest path hnew
      have hbacked : path ∈ t.backups → present files path = true ∧ t.files (.backup path) = files path := by
        rw [hbackups, hbackup]
        exact hrecoverable.backed path
      have hkept : present files path = true → path ∉ t.backups → t.files (.target path) = files path := by
        rw [hbackups, htarget]
        exact hrecoverable.kept path hmem
      refine Leaves.tryCatch_iff.mpr ((recoverOne_leaves (hworks path) hbacked hkept).mono ?_ fun _ _ h => h.elim)
      · rintro _ u ⟨hrows', hbackups', hnamed', hpath, hothers⟩
        refine ⟨hrows'.trans hrows, hbackups'.trans hbackups, hnamed'.trans hnamed, ?_, ?_⟩
        · intro p hp
          by_cases heq : p = path
          · exact heq ▸ hpath
          · have hold : p ∈ done := by simpa [heq] using hp
            exact (hothers p heq).1.trans (hdone p hold)
        · intro p hp
          simp only [List.mem_append, List.mem_singleton, not_or] at hp
          exact ⟨(hothers p hp.2).1.trans (hrest p hp.1).1, (hothers p hp.2).2.trans (hrest p hp.1).2⟩
    · rintro _ t ⟨hrows, _, hnamed, hdone, _⟩
      exact ⟨hrows, hnamed, fun p hp => hdone p (List.mem_reverse.mpr hp)⟩
    · exact fun _ _ h => h.elim
  · rintro _ t ⟨hrows, hnamed, htargets⟩
    exact Leaves.bind_iff.mpr (Leaves.get_iff.mpr (Leaves.throw_iff.mpr ⟨hnamed, hrows, htargets⟩))

/-! ### The removal of the temporary files -/

theorem discardOne_leaves {file : File ρ} {s : State ρ τ δ} {E : List ρ → State ρ τ δ → Prop} :
    Leaves (e.discardOne file) s (fun _ t => t.records = s.records ∧ t.preserved = s.preserved ∧
      t.files file = (if (∀ path ∈ s.preserved, file ≠ .backup path) ∧ e.fails (.discard file) = false then none else s.files file) ∧
      ∀ other, other ≠ file → t.files other = s.files other) E := by
  refine Leaves.bind_iff.mpr (Leaves.get_iff.mpr ?_)
  split
  · next hfree =>
      refine Leaves.tryCatch_iff.mpr (attempt_leaves.mono ?_ ?_)
      · rintro _ t ⟨hworks, rfl⟩
        refine ⟨rfl, rfl, ?_, fun other hother => by simp [hother]⟩
        rw [if_pos ⟨hfree, hworks⟩, write_files, if_pos rfl]
      · rintro _ t ⟨hfails, rfl, _⟩
        refine Leaves.pure_iff.mpr ⟨rfl, rfl, ?_, fun _ _ => rfl⟩
        rw [if_neg (by simp [hfails])]
  · next hkept =>
      refine Leaves.pure_iff.mpr ⟨rfl, rfl, ?_, fun _ _ => rfl⟩
      rw [if_neg fun h => hkept h.1]

/-- The removal always returns. It touches no row, and no file but those beside the paths. -/
theorem cleanup_leaves {s : State ρ τ δ} {E : List ρ → State ρ τ δ → Prop} :
    Leaves e.cleanup s (fun _ t => t.records = s.records ∧
      (∀ file, file ∉ s.staged.map File.staged ++ s.backups.map File.backup → t.files file = s.files file) ∧
      ∀ file ∈ s.staged.map File.staged ++ s.backups.map File.backup, s.preserved = [] →
        t.files file = if e.fails (.discard file) = true then s.files file else none) E := by
  refine Leaves.bind_iff.mpr (Leaves.get_iff.mpr ?_)
  refine (Leaves.forM (E := E) (I := fun done t => t.records = s.records ∧ t.preserved = s.preserved ∧
    (∀ file, file ∉ done → t.files file = s.files file) ∧
    ∀ file ∈ done, s.preserved = [] → t.files file = if e.fails (.discard file) = true then s.files file else none) ?_ ?_).mono ?_ ?_
  · exact ⟨rfl, rfl, fun _ _ => rfl, fun _ hfile => absurd hfile List.not_mem_nil⟩
  · rintro done file rest t _ ⟨hrows, hpreserved, hothers, hdone⟩
    refine discardOne_leaves.mono ?_ fun _ _ h => h
    rintro _ u ⟨hrows', hpreserved', hfile, hrest⟩
    refine ⟨hrows'.trans hrows, hpreserved'.trans hpreserved, ?_, ?_⟩
    · intro other hother
      simp only [List.mem_append, List.mem_singleton, not_or] at hother
      exact (hrest other hother.2).trans (hothers other hother.1)
    · intro other hother hnone
      have hbefore : t.files other = s.files other ∨ t.files other = if e.fails (.discard other) = true then s.files other else none := by
        by_cases hold : other ∈ done
        · exact .inr (hdone other hold hnone)
        · exact .inl (hothers other hold)
      by_cases heq : other = file
      · subst heq
        rw [hfile, hpreserved, hnone]
        cases hfails : e.fails (.discard other) <;> simp_all
      · rw [hrest other heq]
        exact hdone other (by simpa [heq] using hother) hnone
  · rintro _ t ⟨hrows, _, hothers, hdone⟩
    exact ⟨hrows, hothers, hdone⟩
  · exact fun _ _ h => h

/-! ### The call -/

/-- What a call that returns leaves. -/
structure Returned (e : Env ρ τ δ) (batch : Batch ρ δ) (files : ρ → Option τ) (records : ρ → Projection τ δ) (t : State ρ τ δ) :
    Prop where
  silent : ∀ entry ∈ batch.entries, e.managed entry.1 = true → e.fails (.save entry.1) = false ∧ e.fails (.publish entry.1) = false
  rows : t.records = e.recordsAfter records batch.entries
  target : ∀ entry ∈ batch.entries, e.managed entry.1 = false → t.files (.target entry.1) = some (e.codec.jsonBytes entry.2)
  beside : ∀ p, t.files (.staged p) = none
  backup : ∀ p, t.files (.backup p) = if p ∈ batch.paths ∧ e.fails (.discard (.backup p)) = true then files p else none

/-- What a call that raises leaves: the rows are as they were, or those that were written before the failure are new. -/
structure Raised (e : Env ρ τ δ) (batch : Batch ρ δ) (files : ρ → Option τ) (records : ρ → Projection τ δ) (named : List ρ)
    (t : State ρ τ δ) : Prop where
  unnamed : named = []
  target : ∀ p ∈ batch.paths, t.files (.target p) = files p
  rows : (t.records = records ∧ ∃ step, Step.early step = true ∧ e.fails step = true) ∨
    ∃ done entry rest, batch.entries = done ++ entry :: rest ∧ e.managed entry.1 = true ∧
      (e.fails (.save entry.1) = true ∧ t.records = e.recordsAfter records done ∨
        e.fails (.publish entry.1) = true ∧ t.records = e.recordsAfter records (done ++ [entry]))

omit [DecidableEq ρ] in
theorem finallyDo_leaves {act last : Act ρ τ δ Unit} {s : State ρ τ δ} {Q Q' : State ρ τ δ → Prop}
    {E E' : List ρ → State ρ τ δ → Prop} (hact : Leaves act s (fun _ t => Q t) E)
    (hreturned : ∀ t, Q t → Leaves last t (fun _ u => Q' u) E')
    (hraised : ∀ named t, E named t → Leaves last t (fun _ u => E' named u) E') :
    Leaves (Env.finallyDo act last) s (fun _ t => Q' t) E' := by
  refine Leaves.bind (P := fun raised t => (raised = none → Q t) ∧ ∀ named ∈ raised, E named t) ?_ ?_
  · refine Leaves.tryCatch_iff.mpr (Leaves.bind_iff.mpr (hact.mono ?_ ?_))
    · intro _ t h
      refine Leaves.pure_iff.mpr ⟨fun _ => h, fun _ hnone => ?_⟩
      cases hnone
    · intro named t h
      refine Leaves.pure_iff.mpr ⟨fun hsome => ?_, fun other hother => ?_⟩
      · cases hsome
      · rwa [← Option.some.inj hother]
  · intro raised t h
    cases raised with
    | none => exact Leaves.bind (hreturned t (h.1 rfl)) fun _ u hu => Leaves.pure_iff.mpr hu
    | some named => exact Leaves.bind (hraised named t (h.2 named rfl)) fun _ u hu => Leaves.throw_iff.mpr hu

theorem Projected.returned {s t : State ρ τ δ} (hprojected : Projected e batch files records batch.entries s)
    (hrows : t.records = s.records)
    (hothers : ∀ file, file ∉ s.staged.map File.staged ++ s.backups.map File.backup → t.files file = s.files file)
    (hremoved : ∀ file ∈ s.staged.map File.staged ++ s.backups.map File.backup, s.preserved = [] →
      t.files file = if e.fails (.discard file) = true then s.files file else none) : Returned e batch files records t := by
  refine ⟨hprojected.silent, hrows.trans hprojected.rows, ?_, ?_, ?_⟩
  · intro entry hmem hplain
    rw [hothers _ (by simp)]
    exact hprojected.target entry hmem hplain
  · intro p
    by_cases hp : File.staged p ∈ s.staged.map File.staged ++ s.backups.map File.backup
    · rw [hremoved _ hp hprojected.preserved, hprojected.beside, ite_self]
    · rw [hothers _ hp, hprojected.beside]
  · intro p
    by_cases hp : p ∈ s.backups
    · have hmem : p ∈ batch.paths := by
        rw [hprojected.backupNames] at hp
        exact (List.mem_filter.mp hp).1
      rw [hremoved _ (by simpa using hp) hprojected.preserved, hprojected.backup, if_pos hmem]
      simp [hmem]
    · rw [hothers _ (by simpa using hp), hprojected.backup]
      rw [hprojected.backupNames, List.mem_filter, not_and] at hp
      by_cases hmem : p ∈ batch.paths
      · have habsent : files p = none := by simpa [present] using hp hmem
        simp [habsent]
      · simp [hmem]

theorem replace_leaves (e : Env ρ τ δ) (batch : Batch ρ δ) (files : ρ → Option τ) (records : ρ → Projection τ δ) :
    Leaves (e.replaceJsonBatch batch) (start files records) (fun _ t => Returned e batch files records t)
      (fun named t => Raised e batch files records named t) := by
  refine Leaves.bind (P := fun _ t => t = start files records) ?_ ?_
  · refine Leaves.forM (I := fun _ t => t = start files records) rfl ?_
    rintro done path rest _ _ rfl
    refine attempt_leaves.mono ?_ ?_
    · rintro _ t ⟨_, rfl⟩
      rfl
    · rintro _ t ⟨hfails, rfl, rfl⟩
      exact ⟨rfl, fun _ _ => rfl, .inl ⟨rfl, _, rfl, hfails⟩⟩
  rintro _ _ rfl
  refine Leaves.bind_iff.mpr (Leaves.get_iff.mpr ?_)
  refine finallyDo_leaves (Q := fun t => Projected e batch files records batch.entries t)
    (E := fun named t => Raised e batch files records named t) ?_ ?_ ?_
  · refine Leaves.tryCatch_iff.mpr ((body_leaves e batch files records).mono (fun _ _ h => h) ?_)
    rintro _ t hfailure
    have hforward : ∀ path, e.fails (.recover path) = false := by
      intro path
      rcases hfailure with ⟨_, _, step, hearly, hfails⟩ | ⟨_, done, entry, rest, _, _, ⟨hfails, _⟩ | ⟨hfails, _⟩⟩
      · exact fails_other hfails fun heq => by simp [heq, Step.early] at hearly
      · exact fails_other hfails (by simp)
      · exact fails_other hfails (by simp)
    have hrecoverable : Recoverable batch files t := by
      rcases hfailure with h | h
      · exact h.1
      · exact h.1
    refine (rollback_leaves hforward hrecoverable).mono (fun _ _ h => h.elim) ?_
    rintro named u ⟨hnamed, hrows, htargets⟩
    refine ⟨hnamed, htargets, ?_⟩
    rw [hrows]
    rcases hfailure with ⟨_, hsame, hearly⟩ | ⟨_, hlate⟩
    · exact .inl ⟨hsame, hearly⟩
    · exact .inr hlate
  · intro t hprojected
    refine cleanup_leaves.mono ?_ fun _ _ h => h
    rintro _ u ⟨hrows, hothers, hremoved⟩
    exact hprojected.returned hrows hothers hremoved
  · intro named t hraised
    refine cleanup_leaves.mono ?_ fun _ _ h => h
    rintro _ u ⟨hrows, hothers, _⟩
    refine ⟨hraised.unnamed, fun p hp => ?_, hrows.symm ▸ hraised.rows⟩
    rw [hothers _ (by simp)]
    exact hraised.target p hp

/-! ### All or nothing -/

/-- A call that returns has replaced every document and leaves nothing beside them. A call that raises has replaced none, but for
those that its error names and whose backups are kept. -/
def Env.AllOrNothing (e : Env ρ τ δ) (batch : Batch ρ δ) (files : ρ → Option τ) (records : ρ → Projection τ δ) : Prop :=
  Leaves (e.replaceJsonBatch batch) (start files records)
    (fun _ t => (∀ entry ∈ batch.entries, e.readJson t entry.1 = .ok (some entry.2)) ∧
      ∀ p, t.files (.staged p) = none ∧ t.files (.backup p) = none)
    (fun named t => ∀ p ∈ batch.paths,
      t.files (.target p) = files p ∧ e.readJson t p = e.readJson (start files records) p ∨
        p ∈ named ∧ files p ≠ none ∧ t.files (.backup p) = files p)

/-- The entries before that of a path. -/
def Batch.before (batch : Batch ρ δ) (path : ρ) : List (ρ × δ) := batch.entries.takeWhile fun entry => decide (entry.1 ≠ path)

/-- The document is already what the batch makes of it. -/
def Env.Unchanged (e : Env ρ τ δ) (files : ρ → Option τ) (records : ρ → Projection τ δ) (entry : ρ × δ) : Prop :=
  e.readJson (start files records) entry.1 = .ok (some entry.2)

/-- The step that fails is not the removal of a backup, and no row that changes anything is written before it. -/
structure Env.Harmless (e : Env ρ τ δ) (batch : Batch ρ δ) (files : ρ → Option τ) (records : ρ → Projection τ δ) : Prop where
  discards : ∀ p ∈ batch.paths, files p ≠ none → e.fails (.discard (.backup p)) = false
  saves : ∀ entry ∈ batch.entries, e.managed entry.1 = true → e.fails (.save entry.1) = true ∨ e.fails (.publish entry.1) = true →
    ∀ other ∈ batch.before entry.1, e.managed other.1 = true → e.Unchanged files records other
  publishes : ∀ entry ∈ batch.entries, e.managed entry.1 = true → e.fails (.publish entry.1) = true → e.Unchanged files records entry

theorem before_eq {done rest : List (ρ × δ)} {entry : ρ × δ} (hsplit : batch.entries = done ++ entry :: rest) :
    batch.before entry.1 = done := by
  have hapart := batch.apart
  rw [hsplit, List.map_append, List.map_cons, List.nodup_append] at hapart
  have hdone : ∀ other ∈ done, decide (other.1 ≠ entry.1) = true := by
    intro other hother
    exact decide_eq_true (hapart.2.2 _ (List.mem_map.mpr ⟨_, hother, rfl⟩) _ List.mem_cons_self)
  rw [Batch.before, hsplit, List.takeWhile_append_of_pos hdone, List.takeWhile_cons_of_neg (by simp), List.append_nil]

omit [DecidableEq ρ] in
theorem readJson_plain {s t : State ρ τ δ} {path : ρ} (htarget : t.files (.target path) = s.files (.target path))
    (hrow : e.managed path = true → t.records path = s.records path) : e.readJson t path = e.readJson s path := by
  unfold Env.readJson
  cases hmanaged : e.managed path with
  | true => rw [htarget, hrow hmanaged]
  | false => simp only [htarget, Bool.false_eq_true, if_false]

omit [DecidableEq ρ] in
theorem readJson_row {t : State ρ τ δ} {path : ρ} {v : δ} (hmanaged : e.managed path = true)
    (hrow : t.records path = .record (e.codec.canonical v)) : e.readJson t path = .ok (some v) := by
  unfold Env.readJson
  rw [if_pos hmanaged, hrow]
  simp only [e.codec.loads_canonical]

theorem Returned.reads {t : State ρ τ δ} (hreturned : Returned e batch files records t) :
    ∀ entry ∈ batch.entries, e.readJson t entry.1 = .ok (some entry.2) := by
  intro entry hmem
  cases hmanaged : e.managed entry.1 with
  | true =>
      apply readJson_row hmanaged
      rw [hreturned.rows]
      exact recordsAfter_mem batch.apart hmem hmanaged
  | false =>
      unfold Env.readJson
      simp only [hmanaged, hreturned.target entry hmem hmanaged, e.codec.loads_jsonBytes, Bool.false_eq_true, if_false]

/-- A path reads as before exactly if no row of it is written that changes anything. -/
theorem Raised.reads_iff {named : List ρ} {t : State ρ τ δ} {done : List (ρ × δ)} (hraised : Raised e batch files records named t)
    (hdone : ∀ other ∈ done, other ∈ batch.entries) (hapart : (done.map Prod.fst).Nodup)
    (hrows : t.records = e.recordsAfter records done) :
    (∀ p ∈ batch.paths, e.readJson t p = e.readJson (start files records) p) ↔
      ∀ other ∈ done, e.managed other.1 = true → e.Unchanged files records other := by
  constructor
  · intro hsame other hother hmanaged
    have hrow : t.records other.1 = .record (e.codec.canonical other.2) := by
      rw [hrows]
      exact recordsAfter_mem hapart hother hmanaged
    rw [Env.Unchanged, ← hsame other.1 (mem_paths (hdone other hother)), readJson_row hmanaged hrow]
  · intro hunchanged p hp
    have htarget : t.files (.target p) = (start files records).files (.target p) := hraised.target p hp
    by_cases hmem : p ∈ done.map Prod.fst
    · obtain ⟨other, hother, rfl⟩ := List.mem_map.mp hmem
      cases hmanaged : e.managed other.1 with
      | true =>
          have hrow : t.records other.1 = .record (e.codec.canonical other.2) := by
            rw [hrows]
            exact recordsAfter_mem hapart hother hmanaged
          exact (readJson_row hmanaged hrow).trans (hunchanged other hother hmanaged).symm
      | false => exact readJson_plain htarget fun h => by simp [hmanaged] at h
    · refine readJson_plain htarget fun _ => ?_
      rw [hrows, recordsAfter_not_mem hmem]
      rfl

theorem Returned.allOrNothing_iff {t : State ρ τ δ} (hreturned : Returned e batch files records t) :
    ((∀ entry ∈ batch.entries, e.readJson t entry.1 = .ok (some entry.2)) ∧
      ∀ p, t.files (.staged p) = none ∧ t.files (.backup p) = none) ↔ e.Harmless batch files records := by
  have hbackup : (∀ p, t.files (.staged p) = none ∧ t.files (.backup p) = none) ↔
      ∀ p ∈ batch.paths, files p ≠ none → e.fails (.discard (.backup p)) = false := by
    constructor
    · intro hnone p hp hpresent
      have hgone := (hnone p).2
      rw [hreturned.backup] at hgone
      rw [← Bool.not_eq_true]
      intro hfails
      rw [if_pos ⟨hp, hfails⟩] at hgone
      exact hpresent hgone
    · intro hdiscards p
      refine ⟨hreturned.beside p, ?_⟩
      rw [hreturned.backup]
      split
      · next hkept =>
          by_contra hpresent
          rw [hdiscards p hkept.1 hpresent] at hkept
          cases hkept.2
      · rfl
  rw [hbackup]
  constructor
  · rintro ⟨_, hdiscards⟩
    refine ⟨hdiscards, ?_, ?_⟩
    · intro entry hmem hmanaged hfails
      simp [hreturned.silent entry hmem hmanaged] at hfails
    · intro entry hmem hmanaged hfails
      simp [hreturned.silent entry hmem hmanaged] at hfails
  · exact fun hharmless => ⟨hreturned.reads, hharmless.discards⟩

theorem Raised.allOrNothing_iff {named : List ρ} {t : State ρ τ δ} (hraised : Raised e batch files records named t) :
    (∀ p ∈ batch.paths, t.files (.target p) = files p ∧ e.readJson t p = e.readJson (start files records) p ∨
      p ∈ named ∧ files p ≠ none ∧ t.files (.backup p) = files p) ↔ e.Harmless batch files records := by
  have hreads : (∀ p ∈ batch.paths, t.files (.target p) = files p ∧ e.readJson t p = e.readJson (start files records) p ∨
      p ∈ named ∧ files p ≠ none ∧ t.files (.backup p) = files p) ↔
      ∀ p ∈ batch.paths, e.readJson t p = e.readJson (start files records) p := by
    refine forall₂_congr fun p hp => ?_
    simp [hraised.target p hp, hraised.unnamed]
  have hapart := batch.apart
  rw [hreads]
  rcases hraised.rows with ⟨hrows, step, hearly, hstep⟩ | ⟨done, entry, rest, hsplit, hmanaged, hrows⟩
  · have hother (other : Step ρ) (hlate : Step.early other = false) : e.fails other = false :=
      fails_other hstep fun heq => by simp [heq, hlate] at hearly
    refine iff_of_true ?_ ⟨fun p _ _ => hother _ rfl, ?_, ?_⟩
    · have hnone : ∀ other ∈ ([] : List (ρ × δ)), other ∈ batch.entries := fun _ h => absurd h List.not_mem_nil
      exact (hraised.reads_iff hnone List.nodup_nil hrows).mpr fun _ h => absurd h List.not_mem_nil
    · intro entry _ _ hfails
      simp [hother (.save entry.1) rfl, hother (.publish entry.1) rfl] at hfails
    · intro entry _ _ hfails
      simp [hother (.publish entry.1) rfl] at hfails
  · have hmem : entry ∈ batch.entries := hsplit ▸ List.mem_append_right _ List.mem_cons_self
    have hdone : ∀ other ∈ done, other ∈ batch.entries := fun other h => hsplit ▸ List.mem_append_left _ h
    rw [hsplit, List.map_append, List.map_cons, List.nodup_append] at hapart
    -- two entries of one path are the same entry
    have hsame : ∀ other ∈ batch.entries, other.1 = entry.1 → batch.before other.1 = done ∧ other = entry := by
      intro other hother heq
      refine ⟨heq ▸ before_eq hsplit, ?_⟩
      exact List.inj_on_of_nodup_map batch.apart hother hmem heq
    rcases hrows with ⟨hfails, hrows⟩ | ⟨hfails, hrows⟩
    · rw [hraised.reads_iff hdone hapart.1 hrows]
      constructor
      · intro hunchanged
        refine ⟨fun p _ _ => fails_other hfails (by simp), ?_, ?_⟩
        · rintro other hother _ (hfails' | hfails')
          · rw [(hsame other hother (by simpa using fails_unique hfails' hfails)).1]
            exact hunchanged
          · rw [fails_other hfails (by simp)] at hfails'
            cases hfails'
        · intro other _ _ hfails'
          rw [fails_other hfails (by simp)] at hfails'
          cases hfails'
      · intro hharmless
        have hsaves := hharmless.saves entry hmem hmanaged (.inl hfails)
        rwa [before_eq hsplit] at hsaves
    · have hdone' : ∀ other ∈ done ++ [entry], other ∈ batch.entries := by
        intro other hother
        rcases List.mem_append.mp hother with h | h
        · exact hdone other h
        · exact List.mem_singleton.mp h ▸ hmem
      have hapart' : ((done ++ [entry]).map Prod.fst).Nodup := by
        have hall := batch.apart
        rw [hsplit, List.append_cons, List.map_append] at hall
        exact hall.of_append_left
      rw [hraised.reads_iff hdone' hapart' hrows]
      constructor
      · intro hunchanged
        refine ⟨fun p _ _ => fails_other hfails (by simp), ?_, ?_⟩
        · rintro other hother _ (hfails' | hfails')
          · rw [fails_other hfails (by simp)] at hfails'
            cases hfails'
          · rw [(hsame other hother (by simpa using fails_unique hfails' hfails)).1]
            exact fun before hbefore => hunchanged before (List.mem_append_left _ hbefore)
        · intro other hother hmanaged' hfails'
          obtain ⟨_, rfl⟩ := hsame other hother (by simpa using fails_unique hfails' hfails)
          exact hunchanged other (List.mem_append_right _ (List.mem_singleton_self _)) hmanaged'
      · intro hharmless other hother hmanaged'
        rcases List.mem_append.mp hother with h | h
        · have hsaves := hharmless.saves entry hmem hmanaged (.inr hfails)
          rw [before_eq hsplit] at hsaves
          exact hsaves other h hmanaged'
        · rw [List.mem_singleton.mp h]
          exact hharmless.publishes entry hmem hmanaged hfails

theorem batch_atomic_iff (e : Env ρ τ δ) (batch : Batch ρ δ) (files : ρ → Option τ) (records : ρ → Projection τ δ) :
    e.AllOrNothing batch files records ↔ e.Harmless batch files records := by
  have hleaves := replace_leaves e batch files records
  unfold Env.AllOrNothing
  unfold Leaves at hleaves ⊢
  cases hcall : e.replaceJsonBatch batch (start files records) with
  | ok _ t =>
      rw [hcall] at hleaves
      exact hleaves.allOrNothing_iff
  | error named t =>
      rw [hcall] at hleaves
      exact hleaves.allOrNothing_iff

/-! ### A record whose file is not written -/

/-- Documents that are numbers, followed by a line end or by nothing. -/
def numberCodec : Codec (List Char) Nat where
  loads text := some (Nat.ofDigitChars 10 (text.filter Char.isDigit) 0)
  jsonBytes n := Nat.toDigits 10 n ++ ['\n']
  canonical n := Nat.toDigits 10 n
  loads_jsonBytes n := by
    have hdigits : (Nat.toDigits 10 n).filter Char.isDigit = Nat.toDigits 10 n :=
      List.filter_eq_self.mpr fun c hc => Nat.isDigit_of_mem_toDigits (by decide) (by decide) hc
    have hline : ['\n'].filter Char.isDigit = [] := by decide
    rw [List.filter_append, hdigits, hline, List.append_nil, Nat.ofDigitChars_ten_toDigits]
  loads_canonical n := by
    have hdigits : (Nat.toDigits 10 n).filter Char.isDigit = Nat.toDigits 10 n :=
      List.filter_eq_self.mpr fun c hc => Nat.isDigit_of_mem_toDigits (by decide) (by decide) hc
    rw [hdigits, Nat.ofDigitChars_ten_toDigits]

/-- The file of the run record cannot be written once more. -/
def fullDisk : Env String (List Char) Nat where
  codec := numberCodec
  managed path := path == ".auto-agents/state/run_state.json"
  fault := some { step := .publish ".auto-agents/state/run_state.json", left := none }

def runRecord : Batch String Nat where
  entries := [("plan.json", 2), (".auto-agents/state/run_state.json", 2)]
  apart := by decide

def firstFiles (_ : String) : Option (List Char) := some ['1']
def firstRecords (_ : String) : Projection (List Char) Nat := .record ['1']

/-- The run record that is read after the call. -/
def readAfter : Option (Except Unit (Option Nat)) :=
  match fullDisk.replaceJsonBatch runRecord (start firstFiles firstRecords) with
  | .ok _ _ => none
  | .error _ t => some (fullDisk.readJson t ".auto-agents/state/run_state.json")

theorem run_record_kept : ¬ fullDisk.AllOrNothing runRecord firstFiles firstRecords := by
  intro hatomic
  have hafter : readAfter = some (.ok (some 2)) := by decide +kernel
  have hbefore : fullDisk.readJson (start firstFiles firstRecords) ".auto-agents/state/run_state.json" = .ok (some 1) := by
    decide +kernel
  have hbackup : ∀ named t, fullDisk.replaceJsonBatch runRecord (start firstFiles firstRecords) = .error named t → named = [] :=
    fun _ _ hcall => ((replace_leaves fullDisk runRecord firstFiles firstRecords).of_error hcall).unnamed
  unfold Env.AllOrNothing Leaves at hatomic
  unfold readAfter at hafter
  cases hcall : fullDisk.replaceJsonBatch runRecord (start firstFiles firstRecords) with
  | ok _ t =>
      rw [hcall] at hafter
      cases hafter
  | error named t =>
      rw [hcall] at hatomic hafter
      have hread : fullDisk.readJson t ".auto-agents/state/run_state.json" = .ok (some 2) := Option.some.inj hafter
      rcases hatomic ".auto-agents/state/run_state.json" (by decide) with ⟨_, hsame⟩ | ⟨hnamed, _⟩
      · rw [hbefore, hread] at hsame
        cases hsame
      · rw [hbackup named t hcall] at hnamed
        cases hnamed

end AutoAgents.Rebind
