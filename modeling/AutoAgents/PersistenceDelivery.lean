import AutoAgents.SchemaPatterns
import AutoAgents.PersistenceTargets
import AutoAgents.WorkspaceCandidate

/-! The persistence check of a candidate. A schema change needs a declared change, whose transition the check knows
by words of its own, and a migration that the source has may not be edited. -/

namespace AutoAgents.Persistence

open Base
open Git

/-- The text of a name. -/
def nameText (p : Path) : Text := ("/".intercalate p).toList

/-- What a candidate keeps of its declared change. -/
structure PersistenceManifest where
  change : Change
  candidate : Tree
  fingerprint : String
  deriving DecidableEq

/-- The source has the name, as a file or as a directory. -/
def sourceHas (source : Commit) (p : Path) : Bool := (source.at p).isSome || source.directory p

/-- The test of a listed name for a migration that may not change. -/
def immutableMigration (source : Commit) (p : Path) : Bool :=
  (parts p).any (fun part => part == "migrations" || part == "migration") && sourceHas source p

def contractRefusal (message : String) : ControlError := ⟨"persistence_contract", message, .model⟩

/-- `validate_persistence`, with the diff from the source to the revision. A change that is absent is `none`, and so is
an empty one. The names are a set in the source, and any of those found may be the one in the message. -/
def validatePersistence (φ : Unicode) (digest : Change → Tree → String) (delta : Text) (candidate : Candidate) :
    Option Change → Except ControlError (Option PersistenceManifest)
  | none =>
      if detectSchemaChanges φ delta ≠ [] then
        .error (contractRefusal "Schema changes require a declared persistence decision")
      else .ok none
  | some change =>
      if change.transition ∉ ["none", "initialize", "migrate", "rebuild"] then
        .error (contractRefusal "Invalid persistence transition")
      else if change.transition = "none" ∧ detectSchemaChanges φ delta ≠ [] then
        .error (contractRefusal "Persistence decision omits detected schema changes")
      else if change.transition ≠ "none" ∧ change.targetIds.getD [] = [] then
        .error (contractRefusal "Declare persistence target_ids from operator configuration")
      else
        match candidate.paths.find? (immutableMigration candidate.source) with
        | some name => .error ⟨"immutable_migration", "Existing migration modified: " ++ String.ofList (nameText name), .model⟩
        | none => .ok (some ⟨change, candidate.revision.tree, digest change candidate.revision.tree⟩)

/-! ### What the contract language allows -/

/-- `PERSISTENCE_STORAGE_TRANSITIONS` -/
def storageTransitions : List String := ["none", "initialize", "migrate_in_place", "rebuild", "external_operator"]

/-- The change leaves out schema changes of the diff. -/
def Change.Omits (φ : Unicode) (change : Change) (delta : Text) : Prop :=
  change.transition = "none" ∧ detectSchemaChanges φ delta ≠ []

/-- The change is to be made to no target. -/
def Change.Aimless (change : Change) : Prop := change.transition ≠ "none" ∧ change.targetIds.getD [] = []

/-- The candidate modifies or deletes a file of its source that lies in a directory of migrations. -/
def EditsMigration (candidate : Candidate) : Prop :=
  ∃ p, (candidate.source.at p).isSome = true ∧ candidate.revision.at p ≠ candidate.source.at p ∧
    migrationPattern.search (nameText p) = true

/-- The candidate lists a name of its source with a part that is `migrations` or `migration`. -/
def ListsMigration (candidate : Candidate) : Prop := ∃ p ∈ candidate.paths, immutableMigration candidate.source p = true

/-- The check refuses the change for no other reason than the contract gives, and refuses every edit of a migration. -/
def Admits (φ : Unicode) (digest : Change → Tree → String) (delta : Text) (candidate : Candidate) (change : Change) : Prop :=
  (∀ e, validatePersistence φ digest delta candidate (some change) = .error e →
    change.Omits φ delta ∨ change.Aimless ∨ EditsMigration candidate) ∧
  (EditsMigration candidate → ∃ e, validatePersistence φ digest delta candidate (some change) = .error e)

section

variable {φ : Unicode} {digest : Change → Tree → String} {delta : Text} {candidate : Candidate} {change : Change}

/-- The check refuses a change that it has no word for, one that omits findings, one without targets, and one whose
candidate lists a migration. -/
theorem validatePersistence_refuses :
    (∃ e, validatePersistence φ digest delta candidate (some change) = .error e) ↔
      change.transition ∉ ["none", "initialize", "migrate", "rebuild"] ∨ change.Omits φ delta ∨ change.Aimless ∨
        ListsMigration candidate := by
  have hlists : ListsMigration candidate ↔ ∃ name, candidate.paths.find? (immutableMigration candidate.source) = some name := by
    rw [← Option.isSome_iff_exists, List.find?_isSome]
    exact Iff.rfl
  rw [hlists, validatePersistence, guard_fails, guard_fails, guard_fails]
  refine or_congr_right (or_congr_right (or_congr_right ?_))
  cases candidate.paths.find? (immutableMigration candidate.source) <;> simp

/-- The transitions of the contract language that the check has a word for. -/
theorem checked_transition (h : change.transition ∈ storageTransitions) :
    change.transition ∈ ["none", "initialize", "migrate", "rebuild"] ↔
      change.transition ≠ "migrate_in_place" ∧ change.transition ≠ "external_operator" := by
  simp only [storageTransitions, List.mem_cons, List.not_mem_nil, or_false] at h
  rcases h with h | h | h | h | h <;> simp [h]

/-- The check meets the contract exactly when it has to refuse the change for what it omits, or when the existing
migrations that the candidate edits and those it lists under these names go together, for a transition that the check
knows; for the two it does not know, when a migration is edited. -/
theorem delivery_admits_iff (h : change.transition ∈ storageTransitions) :
    Admits φ digest delta candidate change ↔
      change.Omits φ delta ∨ change.Aimless ∨
        if change.transition = "migrate_in_place" ∨ change.transition = "external_operator" then EditsMigration candidate
        else EditsMigration candidate ↔ ListsMigration candidate := by
  have hrefuses : (∃ e, validatePersistence φ digest delta candidate (some change) = .error e) ↔ _ :=
    validatePersistence_refuses
  rw [checked_transition h] at hrefuses
  rw [Admits, ← exists_imp, hrefuses]
  by_cases homits : change.Omits φ delta
  · simp only [homits, true_or, or_true, imp_true_iff, and_self]
  · by_cases haimless : change.Aimless
    · simp only [haimless, true_or, or_true, imp_true_iff, and_self]
    · simp only [homits, haimless, false_or]
      split
      · next hunknown =>
          have hnot : ¬ (change.transition ≠ "migrate_in_place" ∧ change.transition ≠ "external_operator") := by
            rw [← not_or]
            exact not_not.mpr hunknown
          simp only [hnot, not_false_eq_true, true_or, true_imp_iff, imp_true_iff, and_true]
      · next hknown =>
          have hknows : ¬¬ (change.transition ≠ "migrate_in_place" ∧ change.transition ≠ "external_operator") := by
            rw [← not_or]
            exact not_not.mpr hknown
          simp only [hknows, false_or]
          exact iff_def'.symm

end

/-! ### Candidates of one new file -/

/-- A candidate that adds a file to an empty source. -/
def addedFile (p : Path) (data : Bytes) : Candidate where
  source := .initial ∅ "source"
  revision := .after (.initial ∅ "source") (AList.insert p ⟨.regular, data⟩ ∅) "candidate"
  paths := [p]
  listed := listed_singleton p

theorem addedFile_edits_nothing (p : Path) (data : Bytes) : ¬ EditsMigration (addedFile p data) := by
  rintro ⟨q, hsource, -, -⟩
  cases hsource

/-- A first schema, declared by its strategy of the first version. -/
def firstSchema : Change := { strategy := some "initial_schema", targetIds := some ["local"] }

theorem delivery_admits_iff_initial :
    Admits asciiOnly (fun _ _ => "") [] (addedFile ["migrations", "0001.sql"] []) firstSchema ↔
      firstSchema.Omits asciiOnly [] ∨ firstSchema.Aimless ∨
        if firstSchema.transition = "migrate_in_place" ∨ firstSchema.transition = "external_operator" then
          EditsMigration (addedFile ["migrations", "0001.sql"] [])
        else EditsMigration (addedFile ["migrations", "0001.sql"] []) ↔ ListsMigration (addedFile ["migrations", "0001.sql"] []) :=
  delivery_admits_iff (by decide +kernel)

/-- A migration in place, of a declared target. -/
def migration : Change := { storageTransition := some "migrate_in_place", targetIds := some ["local"] }

/-- A new migration that is declared to be made in place is refused. -/
theorem new_migration_refused :
    migration.transition ∈ storageTransitions ∧
      ¬ Admits asciiOnly (fun _ _ => "") "+++ b/migrations/0001.sql\n".toList (addedFile ["migrations", "0001.sql"] []) migration := by
  have htransition : migration.transition = "migrate_in_place" := by decide +kernel
  refine ⟨by decide +kernel, fun hadmits => ?_⟩
  have hrefused : validatePersistence asciiOnly (fun _ _ => "") "+++ b/migrations/0001.sql\n".toList
      (addedFile ["migrations", "0001.sql"] []) (some migration) = .error (contractRefusal "Invalid persistence transition") := by
    rw [validatePersistence, htransition]
    exact if_pos (by decide)
  rcases hadmits.1 _ hrefused with ⟨hnone, -⟩ | ⟨-, htargets⟩ | hedits
  · rw [htransition] at hnone
    exact absurd hnone (by decide)
  · cases htargets
  · exact addedFile_edits_nothing _ _ hedits

end AutoAgents.Persistence
