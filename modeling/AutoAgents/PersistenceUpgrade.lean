import AutoAgents.RequirementRecords
import AutoAgents.VerificationSteps

/-! The upgrade of the persistence contract to its second version: what becomes of the decisions, of the changes that
tasks declare, and of a blocked run, and which changes come through with all of their artifacts. -/

namespace AutoAgents.Upgrade

open Base
open Requirements
open Verification (fromKeys pathName)

/-! ### Paths -/

/-- `path.replace("\\", "/")` -/
def slashed (path : String) : String := String.ofList (path.toList.map fun c => if c = '\\' then '/' else c)

/-- `"/versions/" in path or path.startswith("db/migrate/")`, of the path with its backslashes replaced. -/
def isVersioned (path : String) : Bool :=
  decide ("/versions/".toList <:+: (slashed path).toList) || "db/migrate/".toList.isPrefixOf (slashed path).toList

/-- `Path(path).stem` -/
def pathStem (path : String) : List Char :=
  let name := pathName path
  let suffix := name.reverse.takeWhile (· != '.')
  match suffix, name.reverse.drop suffix.length with
  | _ :: _, '.' :: c :: rest => (c :: rest).reverse
  | _, _ => name

/-- `_artifact_id` -/
def artifactId (path : String) : String :=
  let stem := pathStem path
  if stem = [] then "migration" else String.ofList (stem.takeWhile (· != '_'))

/-! ### Changes -/

variable {φ : Type} (h : Host φ)

/-- The storage transition and the compatibility policy that a decision is given. -/
abbrev Policies := List (String × String × String)

def missingPolicy (id : String) : String := "missing explicit v2 policy for " ++ if id = "" then "<unknown>" else id

def noChange : Json φ := .obj [("storage_transition", .str "none"), ("compatibility_policy", .str "not_applicable")]

/-- A migration artifact stays one: it is no object, or its path is that of a version. -/
def staysMigration : Json φ → Bool
  | .obj artifact => isVersioned (h.show (field artifact "path" (.str "")))
  | _ => true

/-- The path of an artifact that is none of a version. -/
def contractPath : Json φ → Option String
  | .obj artifact =>
      let path := h.show (field artifact "path" (.str ""))
      if isVersioned path = true ∨ slashed path = "" then none else some (slashed path)
  | _ => none

def isNone (change : Fields φ) : Bool :=
  h.show (field change "storage_transition" (.str "")) == "none" &&
    h.show (field change "compatibility_policy" (.str "")) == "not_applicable"

/-- The list that a field has, if it has one. -/
def listField (change : Fields φ) (name : String) : List (Json φ) :=
  match field change name (.arr []) with
  | .arr items => items
  | _ => []

def withArtifacts (change : Fields φ) (migrations : List (Json φ)) (contracts : List String) : Fields φ :=
  setField (setField change "migration_artifacts" (.arr migrations)) "contract_artifacts" (.arr (contracts.map .str))

/-- `_upgrade_change` of a change that has a storage transition. -/
def upgradeCurrent (change : Fields φ) : Except String (Json φ) :=
  if isNone h change = true then .ok noChange
  else do
    let contracts ← iterate (field change "contract_artifacts" (.arr []))
    let migrations := listField change "migration_artifacts"
    let paths := fromKeys (contracts.map h.show ++ migrations.filterMap (contractPath h))
    return .obj (withArtifacts change (migrations.filter (staysMigration h)) paths)

/-- `str(change.get("strategy", "none") or "none")` -/
def strategy (change : Fields φ) : String :=
  let value := field change "strategy" (.str "none")
  if h.truthy value = true then h.show value else "none"

def schemaArtifact (transition path : String) : Json φ :=
  .obj [("id", .str (artifactId path)), ("path", .str path),
    ("kind", .str (if transition = "initialize" then "baseline" else "schema"))]

/-- `_upgrade_change` of a change of the first version. -/
def upgradeLegacy (policies : Policies) (change : Fields φ) : Except String (Json φ) :=
  if strategy h change = "none" then .ok noChange
  else do
    let id := h.show (field change "decision_id" (.str ""))
    match policies.lookup id with
    | none => .error (missingPolicy id)
    | some (transition, policy) => do
        let targets ← iterate (field change "target_ids" (.arr []))
        let fixtures ← iterate (field change "legacy_fixture_refs" (.arr []))
        let items ← iterate (field change "migration_artifacts" (.arr []))
        let paths := items.map h.show
        return .obj
          [("storage_transition", .str transition), ("compatibility_policy", .str policy), ("decision_id", .str id),
            ("target_ids", .arr targets), ("to_version", .str (h.show (field change "to_version" (.str "")))),
            ("migration_artifacts", .arr ((paths.filter (isVersioned ·)).map (schemaArtifact transition))),
            ("contract_artifacts", .arr ((paths.filter (!isVersioned ·)).map .str)),
            ("legacy_fixture_refs", .arr fixtures)]

/-- `_upgrade_change` -/
def upgradeChange (policies : Policies) : Json φ → Except String (Json φ)
  | .obj change =>
      if (change.lookup "storage_transition").isSome = true then upgradeCurrent h change
      else upgradeLegacy h policies change
  | _ => .ok noChange

def changeOf (task : Fields φ) : Json φ := field task "persistence_change" .null

def upgradeTask (policies : Policies) : Json φ → Except String (Json φ)
  | .obj task => do
      let change ← upgradeChange h policies (changeOf task)
      return .obj (setField task "persistence_change" change)
  | other => .ok other

/-- `_upgrade_tasks` -/
def upgradeTasks (policies : Policies) (payload : Fields φ) : Except String (Fields φ) :=
  match payload.lookup "tasks" with
  | some (.arr tasks) => do
      let tasks ← tasks.mapM (upgradeTask h policies)
      return setField payload "tasks" (.arr tasks)
  | _ => .ok payload

/-! ### Documents -/

def upgradeDecision (policies : Policies) : Json φ → Except String (Json φ)
  | .obj decision =>
      if (decision.lookup "storage_transition").isSome = true then .ok (.obj decision)
      else
        let id := h.show (field decision "id" (.str ""))
        match policies.lookup id with
        | none => .error (missingPolicy id)
        | some (transition, policy) =>
            .ok (.obj (setField (setField (popField decision "strategy") "storage_transition" (.str transition))
              "compatibility_policy" (.str policy)))
  | other => .ok other

def upgradeDecisions (policies : Policies) (trace : Fields φ) : Except String (Fields φ) :=
  match trace.lookup "persistence_decisions" with
  | none => .ok trace
  | some (.arr decisions) => do
      let decisions ← decisions.mapM (upgradeDecision h policies)
      return setField trace "persistence_decisions" (.arr decisions)
  | some _ => .error "persistence_decisions must be a list"

/-- A run that is blocked on the configuration of its persistence, or was interrupted, may go on. -/
def unblock (resumeInterrupted : Bool) (state : Fields φ) : Fields φ :=
  match field state "active_blocker" .null with
  | .obj blocker =>
      let category := h.show (field blocker "category" (.str ""))
      let cleared := setField (setField state "active_blocker" (.obj [])) "last_error" (.str "")
      if category = "persistence_configuration_required" ∨ category = "persistence_target_configuration_required" then
        let status := h.show (field cleared "status" (.str ""))
        if status = "blocked" ∨ status = "failed" then setField cleared "status" (.str "pending") else cleared
      else if resumeInterrupted = true ∧ category = "run_interrupted" then setField cleared "status" (.str "pending")
      else state
  | _ => state

structure Documents (φ : Type) where
  trace : Json φ
  plan : Json φ
  state : Json φ

def withVersion (document : Fields φ) : Fields φ := setField document "persistence_contract_version" (.int 2)

/-- `upgrade_persistence_contract`, of the three documents. -/
def upgradePersistenceContract (policies : Policies) (resumeInterrupted : Bool) (documents : Documents φ) :
    Except String (Documents φ) :=
  match documents.trace, documents.plan, documents.state with
  | .obj trace, .obj plan, .obj state => do
      let trace ← upgradeDecisions h policies trace
      let plan ← upgradeTasks h policies (withVersion plan)
      let state ← upgradeTasks h policies state
      return ⟨.obj (withVersion trace), .obj plan, .obj (unblock h resumeInterrupted state)⟩
  | _, _, _ => .error "requirements trace, task plan, and run state must all be valid objects"

/-! ### Fields that are set -/

section Fields

variable {fields : Fields φ} {key other : String} {value next : Json φ}

/-- The field is there, with this value wherever it is. -/
def Has (fields : Fields φ) (key : String) (value : Json φ) : Prop :=
  key ∈ fields.map Prod.fst ∧ ∀ field ∈ fields, field.1 = key → field.2 = value

theorem has_setField (fields : Fields φ) (key : String) (value : Json φ) : Has (setField fields key value) key value := by
  constructor
  · exact List.mem_map.mpr ⟨(key, value), mem_of_lookup (lookup_setField_self fields), rfl⟩
  · intro field hfield hkey
    rcases mem_setField hfield with rfl | ⟨_, hne⟩
    · rfl
    · exact absurd hkey hne

theorem Has.set (hhas : Has fields key value) (hne : key ≠ other) (next : Json φ) : Has (setField fields other next) key value := by
  constructor
  · obtain ⟨field, hfield, hkey⟩ := List.mem_map.mp hhas.1
    have hlookup : (setField fields other next).lookup key = fields.lookup key := lookup_setField_ne fields hne
    cases hvalue : fields.lookup key with
    | none =>
        have hthere := List.lookup_eq_none_iff.mp hvalue field hfield
        simp [hkey] at hthere
    | some found =>
        rw [hvalue] at hlookup
        exact List.mem_map.mpr ⟨_, mem_of_lookup hlookup, rfl⟩
  · intro field hfield hkey
    rcases mem_setField hfield with rfl | ⟨hold, _⟩
    · exact absurd hkey.symm hne
    · exact hhas.2 field hold hkey

/-- Setting it once more changes nothing. -/
theorem Has.setField_eq (hhas : Has fields key value) : setField fields key value = fields := by
  have hany : fields.any (fun field => field.1 == key) = true := by
    obtain ⟨field, hfield, hkey⟩ := List.mem_map.mp hhas.1
    exact List.any_eq_true.mpr ⟨field, hfield, by simp [hkey]⟩
  unfold setField
  rw [if_pos hany]
  conv_rhs => rw [← List.map_id fields]
  apply List.map_congr_left
  intro field hfield
  by_cases hkey : field.1 = key
  · rw [if_pos hkey, ← hhas.2 field hfield hkey, ← hkey]
    rfl
  · rw [if_neg hkey]
    rfl

theorem Has.lookup (hhas : Has fields key value) : fields.lookup key = some value := by
  rw [← hhas.setField_eq]
  exact lookup_setField_self fields

theorem Has.field (hhas : Has fields key value) : field fields key next = value := by
  simp [Requirements.field, hhas.lookup]

theorem field_setField_ne (hne : key ≠ other) : field (setField fields other value) key next = field fields key next := by
  simp [field, lookup_setField_ne fields hne]

theorem setField_inj {after : Fields φ} (hsame : setField fields key value = after) (hlookup : after.lookup key = some next) :
    value = next := by
  rw [← hsame, lookup_setField_self] at hlookup
  exact Option.some.inj hlookup

end Fields

/-! ### What a change names -/

def artifactPath : Json φ → Option String
  | .str path => some path
  | .obj artifact =>
      match artifact.lookup "path" with
      | some (.str path) => some path
      | _ => none
  | _ => none

def textOf : Json φ → Option String
  | .str path => some path
  | _ => none

/-- The paths that a change names in its artifacts. -/
def named : Json φ → List String
  | .obj change =>
      (listField change "migration_artifacts").filterMap artifactPath ++ (listField change "contract_artifacts").filterMap textOf
  | _ => []

def isObject : Json φ → Bool
  | .obj _ => true
  | _ => false

/-- The migration artifacts of a change, with all that each says. -/
def migrations : Json φ → List (Json φ)
  | .obj change => (listField change "migration_artifacts").filter isObject
  | _ => []

def isCurrent : Json φ → Bool
  | .obj change => (change.lookup "storage_transition").isSome
  | _ => false

/-- What was named is named, and the migrations of a change of the second version are the same. -/
structure ArtifactsKept (before after : Json φ) : Prop where
  named : ∀ path ∈ named before, path ∈ named after
  migrations : isCurrent before = true → migrations after = migrations before

/-- What is upgraded is upgraded to itself, too. -/
structure ChangeKept (policies : Policies) (before after : Json φ) : Prop extends ArtifactsKept before after where
  again : upgradeChange h policies after = .ok after

/-- The texts of the items that a change of the first version has as migration artifacts. -/
def legacyPaths (change : Fields φ) : List String :=
  match iterate (field change "migration_artifacts" (.arr [])) with
  | .ok items => items.map h.show
  | .error _ => []

/-- Nothing is lost. A change that is none names no artifact. All migrations of the second version are in a directory of
versions. A change of the first version is not made none, has no path twice that becomes a contract, and names no path
but as a migration artifact of its own. -/
def Lossless (policies : Policies) : Json φ → Prop
  | .obj change =>
      if (change.lookup "storage_transition").isSome = true then
        if isNone h change = true then named (.obj change) = [] ∧ migrations (.obj change) = []
        else ∀ artifact ∈ migrations (.obj change), staysMigration h artifact = true
      else if strategy h change = "none" then named (.obj change) = []
      else
        (policies.lookup (h.show (field change "decision_id" (.str "")))) ≠ some ("none", "not_applicable") ∧
          ((legacyPaths h change).filter (!isVersioned ·)).Nodup ∧
          ∀ path ∈ named (.obj change), path ∈ legacyPaths h change
  | _ => True

section Changes

variable {h} {policies : Policies} {change : Fields φ} {before after : Json φ}

theorem fromKeys_nodup (texts : List String) : (fromKeys texts).Nodup :=
  List.nodup_reverse.mpr (List.nodup_dedup _)

theorem fromKeys_eq {texts : List String} : fromKeys texts = texts ↔ texts.Nodup := by
  constructor
  · intro heq
    rw [← heq]
    exact fromKeys_nodup texts
  · intro hnodup
    rw [fromKeys, (List.nodup_reverse.mpr hnodup).dedup, List.reverse_reverse]

theorem mem_fromKeys {texts : List String} {text : String} : text ∈ fromKeys texts ↔ text ∈ texts := by
  simp [fromKeys]

theorem show_map_str (texts : List String) : (texts.map fun text => (Json.str text : Json φ)).map h.show = texts := by
  simp [Host.show, Function.comp_def]

theorem upgradeChange_current (hcurrent : (change.lookup "storage_transition").isSome = true) :
    upgradeChange h policies (.obj change) = upgradeCurrent h change := if_pos hcurrent

theorem upgrade_noChange (policies : Policies) : upgradeChange h policies noChange = .ok noChange := by
  simp [upgradeChange, noChange, upgradeCurrent, isNone, field, Host.show, List.lookup]

theorem named_noChange : named (noChange : Json φ) = [] := by
  simp [named, noChange, listField, field, List.lookup]

theorem migrations_noChange : migrations (noChange : Json φ) = [] := by
  simp [migrations, noChange, listField, field, List.lookup]

theorem contractPath_stays {artifact : Json φ} (hstays : staysMigration h artifact = true) : contractPath h artifact = none := by
  cases artifact with
  | obj fields => simp_all [staysMigration, contractPath]
  | _ => rfl

section Artifacts

variable (change : Fields φ) (items : List (Json φ)) (contracts : List String)

theorem has_migrations : Has (withArtifacts change items contracts) "migration_artifacts" (.arr items) :=
  (has_setField change "migration_artifacts" (.arr items)).set (by decide) _

theorem has_contracts : Has (withArtifacts change items contracts) "contract_artifacts" (.arr (contracts.map .str)) :=
  has_setField _ _ _

theorem withArtifacts_again :
    withArtifacts (withArtifacts change items contracts) items contracts = withArtifacts change items contracts := by
  have hmigrations := (has_migrations change items contracts).setField_eq
  show setField (setField (withArtifacts change items contracts) "migration_artifacts" (.arr items)) _ _ = _
  rw [hmigrations]
  exact (has_contracts change items contracts).setField_eq

theorem field_withArtifacts {key : String} {default : Json φ} (hcontracts : key ≠ "contract_artifacts")
    (hmigrations : key ≠ "migration_artifacts") :
    field (withArtifacts change items contracts) key default = field change key default := by
  rw [withArtifacts, field_setField_ne hcontracts, field_setField_ne hmigrations]

theorem lookup_withArtifacts {key : String} (hcontracts : key ≠ "contract_artifacts")
    (hmigrations : key ≠ "migration_artifacts") :
    (withArtifacts change items contracts).lookup key = change.lookup key := by
  rw [withArtifacts, lookup_setField_ne _ hcontracts, lookup_setField_ne _ hmigrations]

theorem listField_migrations : listField (withArtifacts change items contracts) "migration_artifacts" = items := by
  simp [listField, (has_migrations change items contracts).field]

theorem listField_contracts :
    listField (withArtifacts change items contracts) "contract_artifacts" = contracts.map .str := by
  simp [listField, (has_contracts change items contracts).field]

theorem isNone_withArtifacts : isNone h (withArtifacts change items contracts) = isNone h change := by
  unfold isNone
  rw [field_withArtifacts _ _ _ (by decide) (by decide), field_withArtifacts _ _ _ (by decide) (by decide)]

end Artifacts

/-- What is upgraded is upgraded to the same, but for the migrations that become contracts and repeated contracts. -/
theorem upgrade_withArtifacts {items : List (Json φ)} {contracts : List String}
    (hcurrent : (change.lookup "storage_transition").isSome = true) (hsome : isNone h change = false)
    (hstay : ∀ item ∈ items, staysMigration h item = true) :
    upgradeChange h policies (.obj (withArtifacts change items contracts)) =
      .ok (.obj (withArtifacts (withArtifacts change items contracts) items (fromKeys contracts))) := by
  have hpaths : items.filterMap (contractPath h) = [] :=
    List.filterMap_eq_nil_iff.mpr fun item hitem => contractPath_stays (hstay item hitem)
  have hcurrent' : ((withArtifacts change items contracts).lookup "storage_transition").isSome = true := by
    rwa [lookup_withArtifacts _ _ _ (by decide) (by decide)]
  rw [upgradeChange_current hcurrent', upgradeCurrent, isNone_withArtifacts, hsome]
  simp only [Bool.false_eq_true, if_false]
  rw [(has_contracts change items contracts).field, listField_migrations, hpaths, List.filter_eq_self.mpr hstay]
  simp only [iterate, List.append_nil]
  show Except.ok _ = _
  rw [show List.map h.show (contracts.map Json.str) = contracts from show_map_str contracts]

theorem upgradeCurrent_again (hcurrent : (change.lookup "storage_transition").isSome = true)
    (hok : upgradeCurrent h change = .ok after) : upgradeChange h policies after = .ok after := by
  unfold upgradeCurrent at hok
  split at hok
  · cases hok
    exact upgrade_noChange policies
  · rename_i hsome
    simp only [bind_ok, pure_ok] at hok
    obtain ⟨contracts, _, rfl⟩ := hok
    rw [upgrade_withArtifacts hcurrent (Bool.not_eq_true _ ▸ hsome) fun item hitem => (List.mem_filter.mp hitem).2]
    rw [fromKeys_eq.mpr (fromKeys_nodup _), withArtifacts_again]

/-- A change of the second version is kept if and only if its migrations stay migrations. -/
theorem current_kept (hcurrent : (change.lookup "storage_transition").isSome = true)
    (hok : upgradeCurrent h change = .ok after) :
    ChangeKept h policies (.obj change) after ↔ Lossless h policies (.obj change) := by
  have hagain : upgradeChange h policies after = .ok after := upgradeCurrent_again hcurrent hok
  have hcases := hok
  unfold upgradeCurrent at hcases
  simp only [Lossless, hcurrent, if_true]
  split at hcases
  · rename_i hnone
    cases hcases
    rw [if_pos hnone]
    constructor
    · intro hkept
      refine ⟨List.eq_nil_iff_forall_not_mem.mpr fun path hpath => ?_, ?_⟩
      · have hafter := hkept.named path hpath
        rw [named_noChange] at hafter
        cases hafter
      · rw [← hkept.migrations hcurrent, migrations_noChange]
    · rintro ⟨hnamed, hmigrations⟩
      refine ⟨⟨?_, ?_⟩, hagain⟩
      · simp [hnamed]
      · intro _
        rw [hmigrations, migrations_noChange]
  · rename_i hsome
    rw [if_neg hsome]
    simp only [bind_ok, pure_ok] at hcases
    obtain ⟨contracts, hcontracts, rfl⟩ := hcases
    have hmigrations : migrations (.obj (withArtifacts change ((listField change "migration_artifacts").filter (staysMigration h))
        (fromKeys (contracts.map h.show ++ (listField change "migration_artifacts").filterMap (contractPath h))))) =
        (migrations (.obj change)).filter (staysMigration h) := by
      simp only [migrations, listField_migrations, List.filter_filter]
      apply List.filter_congr
      intro item _
      exact Bool.and_comm _ _
    constructor
    · intro hkept artifact hartifact
      have hsame := hkept.migrations hcurrent
      rw [hmigrations] at hsame
      exact List.filter_eq_self.mp hsame artifact hartifact
    · intro hstay
      refine ⟨⟨?_, ?_⟩, hagain⟩
      · intro path hpath
        rcases List.mem_append.mp hpath with hmigration | hcontract
        · obtain ⟨item, hitem, hthere⟩ := List.mem_filterMap.mp hmigration
          refine List.mem_append_left _ (List.mem_filterMap.mpr ⟨item, ?_, hthere⟩)
          rw [listField_migrations]
          refine List.mem_filter.mpr ⟨hitem, ?_⟩
          by_cases hobject : isObject item = true
          · exact hstay item (List.mem_filter.mpr ⟨hitem, hobject⟩)
          · cases item with
            | obj fields => exact absurd rfl hobject
            | _ => rfl
        · obtain ⟨item, hitem, hthere⟩ := List.mem_filterMap.mp hcontract
          refine List.mem_append_right _ (List.mem_filterMap.mpr ⟨.str path, ?_, rfl⟩)
          rw [listField_contracts]
          refine List.mem_map.mpr ⟨path, mem_fromKeys.mpr (List.mem_append_left _ ?_), rfl⟩
          have hlist : field change "contract_artifacts" (.arr []) = .arr contracts := by
            unfold listField at hitem
            split at hitem
            · rename_i items heq
              rw [heq] at hcontracts ⊢
              cases hcontracts
              rfl
            · cases hitem
          have hitem' : item ∈ contracts := by simpa [listField, hlist] using hitem
          refine List.mem_map.mpr ⟨item, hitem', ?_⟩
          cases item with
          | str text => exact Option.some.inj hthere
          | _ => cases hthere
      · intro _
        rw [hmigrations]
        exact List.filter_eq_self.mpr hstay

/-- What a change of the first version becomes. -/
def legacyFields (h : Host φ) (change : Fields φ) (transition policy : String) (targets fixtures : List (Json φ)) (paths : List String) :
    Fields φ :=
  [("storage_transition", .str transition), ("compatibility_policy", .str policy),
    ("decision_id", .str (h.show (field change "decision_id" (.str "")))), ("target_ids", .arr targets),
    ("to_version", .str (h.show (field change "to_version" (.str "")))),
    ("migration_artifacts", .arr ((paths.filter (isVersioned ·)).map (schemaArtifact transition))),
    ("contract_artifacts", .arr ((paths.filter (!isVersioned ·)).map .str)),
    ("legacy_fixture_refs", .arr fixtures)]

theorem upgradeLegacy_ok (hok : upgradeLegacy h policies change = .ok after) :
    (strategy h change = "none" ∧ after = noChange) ∨
      ∃ transition policy targets fixtures, strategy h change ≠ "none" ∧
        policies.lookup (h.show (field change "decision_id" (.str ""))) = some (transition, policy) ∧
        after = .obj (legacyFields h change transition policy targets fixtures (legacyPaths h change)) := by
  unfold upgradeLegacy at hok
  split at hok
  · rename_i hstrategy
    cases hok
    exact .inl ⟨hstrategy, rfl⟩
  · rename_i hstrategy
    simp only at hok
    split at hok
    · cases hok
    · rename_i transition policy hpolicy
      simp only [bind_ok, pure_ok] at hok
      obtain ⟨targets, _, fixtures, _, items, hitems, rfl⟩ := hok
      refine .inr ⟨transition, policy, targets, fixtures, hstrategy, hpolicy, ?_⟩
      simp [legacyFields, legacyPaths, hitems]

theorem schemaArtifact_stays (transition path : String) :
    staysMigration h (schemaArtifact transition path) = isVersioned path := by
  simp [staysMigration, schemaArtifact, field, List.lookup, Host.show]

theorem schemaArtifact_path (transition path : String) : artifactPath (schemaArtifact transition path : Json φ) = some path := by
  simp [artifactPath, schemaArtifact, List.lookup]

variable {transition policy : String} {targets fixtures : List (Json φ)} {paths : List String}

theorem legacyFields_withArtifacts (contracts : List String) :
    withArtifacts (legacyFields h change transition policy targets fixtures paths)
        ((paths.filter (isVersioned ·)).map (schemaArtifact transition)) contracts =
      legacyFields h change transition policy targets fixtures paths ↔ contracts = paths.filter (!isVersioned ·) := by
  simp [withArtifacts, legacyFields, setField, List.map_inj_right (f := (Json.str : String → Json φ)) (by simp)]

theorem legacyFields_current :
    ((legacyFields h change transition policy targets fixtures paths).lookup "storage_transition").isSome = true := by
  simp [legacyFields]

theorem legacyFields_migrations : listField (legacyFields h change transition policy targets fixtures paths) "migration_artifacts" =
    (paths.filter (isVersioned ·)).map (schemaArtifact transition) := by
  simp [listField, legacyFields, field, List.lookup]

theorem legacyFields_contracts : listField (legacyFields h change transition policy targets fixtures paths) "contract_artifacts" =
    (paths.filter (!isVersioned ·)).map .str := by
  simp [listField, legacyFields, field, List.lookup]

/-- All paths are named, as one or the other. -/
theorem legacyFields_named {path : String} :
    path ∈ named (.obj (legacyFields h change transition policy targets fixtures paths)) ↔ path ∈ paths := by
  have hmigrations : ((paths.filter (isVersioned ·)).map (schemaArtifact transition : String → Json φ)).filterMap artifactPath =
      paths.filter (isVersioned ·) := by
    simp only [List.filterMap_map, Function.comp_def, schemaArtifact_path, List.filterMap_some]
  have hcontracts : ((paths.filter (!isVersioned ·)).map (Json.str : String → Json φ)).filterMap textOf =
      paths.filter (!isVersioned ·) := by
    simp only [List.filterMap_map, Function.comp_def, textOf, List.filterMap_some]
  rw [named, legacyFields_migrations, legacyFields_contracts, hmigrations, hcontracts, List.mem_append, List.mem_filter,
    List.mem_filter]
  cases isVersioned path <;> simp

/-- What becomes of a change of the first version is upgraded to itself if it is not none, and has no contract twice. -/
theorem legacyFields_again :
    upgradeChange h policies (.obj (legacyFields h change transition policy targets fixtures paths)) =
        .ok (.obj (legacyFields h change transition policy targets fixtures paths)) ↔
      (transition, policy) ≠ ("none", "not_applicable") ∧ (paths.filter (!isVersioned ·)).Nodup := by
  have hnone : isNone h (legacyFields h change transition policy targets fixtures paths) = true ↔
      (transition, policy) = ("none", "not_applicable") := by
    simp [isNone, legacyFields, field, List.lookup, Host.show]
  by_cases hpolicy : (transition, policy) = ("none", "not_applicable")
  · have hupgraded : upgradeChange h policies (.obj (legacyFields h change transition policy targets fixtures paths)) =
        .ok noChange := by
      rw [upgradeChange_current legacyFields_current, upgradeCurrent, if_pos (hnone.mpr hpolicy)]
    rw [hupgraded]
    simp [noChange, legacyFields, hpolicy]
  · have hstay : ∀ item ∈ (paths.filter (isVersioned ·)).map (schemaArtifact transition), staysMigration h item = true := by
      intro item hitem
      obtain ⟨path, hpath, rfl⟩ := List.mem_map.mp hitem
      rw [schemaArtifact_stays]
      exact (List.mem_filter.mp hpath).2
    have hself : withArtifacts (legacyFields h change transition policy targets fixtures paths)
        ((paths.filter (isVersioned ·)).map (schemaArtifact transition)) (paths.filter (!isVersioned ·)) =
        legacyFields h change transition policy targets fixtures paths := (legacyFields_withArtifacts _).mpr rfl
    have hsome : isNone h (legacyFields h change transition policy targets fixtures paths) = false :=
      Bool.eq_false_iff.mpr fun heq => hpolicy (hnone.mp heq)
    have hagain : upgradeChange h policies (.obj (withArtifacts (legacyFields h change transition policy targets fixtures paths)
        ((paths.filter (isVersioned ·)).map (schemaArtifact transition)) (paths.filter (!isVersioned ·)))) = _ :=
      upgrade_withArtifacts legacyFields_current hsome hstay
    rw [hself] at hagain
    rw [hagain, Except.ok.injEq, Json.obj.injEq, legacyFields_withArtifacts, fromKeys_eq]
    simp [hpolicy]

/-- A change of the first version is kept if and only if it loses nothing. -/
theorem legacy_kept (hlegacy : (change.lookup "storage_transition").isSome = false)
    (hok : upgradeLegacy h policies change = .ok after) :
    ChangeKept h policies (.obj change) after ↔ Lossless h policies (.obj change) := by
  have hbefore : isCurrent (.obj change : Json φ) = false := hlegacy
  simp only [Lossless, hlegacy, Bool.false_eq_true, if_false]
  rcases upgradeLegacy_ok hok with ⟨hstrategy, rfl⟩ | ⟨transition, policy, targets, fixtures, hstrategy, hpolicy, rfl⟩
  · rw [if_pos hstrategy]
    constructor
    · intro hkept
      refine List.eq_nil_iff_forall_not_mem.mpr fun path hpath => ?_
      have hafter := hkept.named path hpath
      rw [named_noChange] at hafter
      cases hafter
    · intro hnamed
      exact ⟨⟨by simp [hnamed], fun hcurrent => absurd hcurrent (by simp [hbefore])⟩, upgrade_noChange policies⟩
  · rw [if_neg hstrategy, hpolicy]
    simp only [ne_eq, Option.some.injEq]
    constructor
    · intro hkept
      obtain ⟨hnone, hnodup⟩ := legacyFields_again.mp hkept.again
      exact ⟨hnone, hnodup, fun path hpath => legacyFields_named.mp (hkept.named path hpath)⟩
    · rintro ⟨hnone, hnodup, hpaths⟩
      exact ⟨⟨fun path hpath => legacyFields_named.mpr (hpaths path hpath),
        fun hcurrent => absurd hcurrent (by simp [hbefore])⟩, legacyFields_again.mpr ⟨hnone, hnodup⟩⟩

/-- A change is kept if and only if it loses nothing. -/
theorem change_kept (hok : upgradeChange h policies before = .ok after) :
    ChangeKept h policies before after ↔ Lossless h policies before := by
  unfold upgradeChange at hok
  split at hok
  · split at hok
    · rename_i hcurrent
      exact current_kept hcurrent hok
    · rename_i hlegacy
      exact legacy_kept (Bool.not_eq_true _ ▸ hlegacy) hok
  · rename_i hother
    cases hok
    have hnamed : named before = [] := by
      cases before with
      | obj fields => exact absurd rfl (hother fields)
      | _ => rfl
    have hcurrent : isCurrent before = false := by
      cases before with
      | obj fields => exact absurd rfl (hother fields)
      | _ => rfl
    have hlossless : Lossless h policies before := by
      cases before with
      | obj fields => exact absurd rfl (hother fields)
      | _ => trivial
    exact iff_of_true ⟨⟨by simp [hnamed], fun h => absurd h (by simp [hcurrent])⟩, upgrade_noChange policies⟩ hlossless

end Changes

/-! ### Runs of the upgrade -/

def taskChange : Json φ → Option (Json φ)
  | .obj task => some (changeOf task)
  | _ => none

/-- The changes that the tasks of a document declare. -/
def changes : Json φ → List (Json φ)
  | .obj payload => (listField payload "tasks").filterMap taskChange
  | _ => []

/-- The upgrade does nothing when it is repeated, every artifact of a task is named afterwards, and a change of the second
version keeps its migrations. -/
structure Kept (policies : Policies) (resumeInterrupted : Bool) (before after : Documents φ) : Prop where
  again : upgradePersistenceContract h policies resumeInterrupted after = .ok after
  plan : List.Forall₂ ArtifactsKept (changes before.plan) (changes after.plan)
  state : List.Forall₂ ArtifactsKept (changes before.state) (changes after.state)

section Documents

variable {h} {policies : Policies} {resumeInterrupted : Bool} {payload upgraded : Fields φ} {tasks done : List (Json φ)}
  {task taskDone : Json φ}

theorem mapM_forall₂ {α β ε : Type} {f : α → Except ε β} {l : List α} {l' : List β} :
    l.mapM f = .ok l' ↔ List.Forall₂ (fun a b => f a = .ok b) l l' := by
  induction l generalizing l' with
  | nil =>
      rw [List.mapM_nil, List.forall₂_nil_left_iff]
      show Except.ok [] = .ok l' ↔ _
      rw [Except.ok.injEq, eq_comm]
  | cons a l ih =>
      simp only [List.mapM_cons, bind_ok, pure_ok, List.forall₂_cons_left_iff, ih]
      constructor
      · rintro ⟨b, hb, rest, hrest, rfl⟩
        exact ⟨b, rest, hb, hrest, rfl⟩
      · rintro ⟨b, rest, hb, hrest, rfl⟩
        exact ⟨b, hb, rest, hrest, rfl⟩

theorem mapM_same {α ε : Type} {f : α → Except ε α} {l : List α} : l.mapM f = .ok l ↔ ∀ a ∈ l, f a = .ok a := by
  rw [mapM_forall₂, List.forall₂_same]

/-- A task that was upgraded is upgraded to itself where its change is. -/
theorem upgradeTask_again (hok : upgradeTask h policies task = .ok taskDone) :
    upgradeTask h policies taskDone = .ok taskDone ↔ ∀ change ∈ taskChange taskDone, upgradeChange h policies change = .ok change := by
  cases task with
  | obj fields =>
      simp only [upgradeTask, bind_ok, pure_ok] at hok
      obtain ⟨change, _, rfl⟩ := hok
      have hhas := has_setField fields "persistence_change" change
      have hchange : changeOf (setField fields "persistence_change" change) = change := hhas.field
      simp only [taskChange, Option.mem_some_iff, forall_eq', upgradeTask, hchange, bind_ok, pure_ok, Json.obj.injEq]
      constructor
      · rintro ⟨other, hother, hsame⟩
        have heq : other = change := setField_inj hsame (lookup_setField_self fields)
        exact heq ▸ hother
      · intro hself
        exact ⟨change, hself, hhas.setField_eq⟩
  | _ =>
      cases hok
      simp [taskChange, upgradeTask]

theorem taskChange_upgraded (hok : upgradeTask h policies task = .ok taskDone) :
    Option.Rel (fun change changed => upgradeChange h policies change = .ok changed) (taskChange task) (taskChange taskDone) := by
  cases task with
  | obj fields =>
      simp only [upgradeTask, bind_ok, pure_ok] at hok
      obtain ⟨change, hchange, rfl⟩ := hok
      have hdone : changeOf (setField fields "persistence_change" change) = change :=
        (has_setField fields "persistence_change" change).field
      simp only [taskChange, hdone]
      exact .some hchange
  | _ =>
      cases hok
      exact .none

theorem filterMap_forall₂ {α β γ δ : Type} {R : α → β → Prop} {S : γ → δ → Prop} {f : α → Option γ} {g : β → Option δ}
    {l : List α} {l' : List β} (hl : List.Forall₂ R l l') (hrel : ∀ a b, R a b → Option.Rel S (f a) (g b)) :
    List.Forall₂ S (l.filterMap f) (l'.filterMap g) := by
  induction hl with
  | nil => exact .nil
  | @cons a b l l' hfirst _ ih =>
      have hboth := hrel a b hfirst
      rw [List.filterMap_cons, List.filterMap_cons]
      generalize f a = c at hboth
      generalize g b = d at hboth
      cases hboth with
      | some hboth => exact .cons hboth ih
      | none => exact ih

theorem upgradeTasks_same (hhas : Has payload "tasks" (.arr tasks)) :
    upgradeTasks h policies payload = .ok payload ↔ ∀ task ∈ tasks, upgradeTask h policies task = .ok task := by
  rw [← mapM_same]
  simp only [upgradeTasks, hhas.lookup, bind_ok, pure_ok]
  constructor
  · rintro ⟨done, hdone, hsame⟩
    have hdoneTasks : done = tasks := Json.arr.inj (setField_inj hsame hhas.lookup)
    exact hdoneTasks ▸ hdone
  · intro hself
    exact ⟨tasks, hself, hhas.setField_eq⟩

/-- The tasks of what was upgraded, each with the change that was made of its own; other documents of the same tasks are
upgraded to themselves where these changes are. -/
theorem upgradeTasks_changes (hok : upgradeTasks h policies payload = .ok upgraded) :
    List.Forall₂ (fun change changed => upgradeChange h policies change = .ok changed) (changes (.obj payload))
        (changes (.obj upgraded)) ∧
      ∀ later : Fields φ, (∀ tasks, Has upgraded "tasks" (.arr tasks) → Has later "tasks" (.arr tasks)) →
        later.lookup "tasks" = upgraded.lookup "tasks" →
        (upgradeTasks h policies later = .ok later ↔
          ∀ change ∈ changes (.obj upgraded), upgradeChange h policies change = .ok change) := by
  unfold upgradeTasks at hok
  split at hok
  · rename_i tasks htasks
    simp only [bind_ok, pure_ok] at hok
    obtain ⟨done, hdone, rfl⟩ := hok
    have hhas := has_setField payload "tasks" (.arr done)
    have hbefore : listField payload "tasks" = tasks := by simp [listField, field, htasks]
    have hafter : listField (setField payload "tasks" (.arr done)) "tasks" = done := by simp [listField, hhas.field]
    have hboth := mapM_forall₂.mp hdone
    refine ⟨?_, ?_⟩
    · rw [changes, changes, hbefore, hafter]
      exact filterMap_forall₂ hboth fun _ _ => taskChange_upgraded
    · intro later hlater _
      rw [upgradeTasks_same (hlater done hhas), changes, hafter]
      have heach : ∀ task ∈ done, (upgradeTask h policies task = .ok task ↔
          ∀ change ∈ taskChange task, upgradeChange h policies change = .ok change) := by
        intro task htask
        obtain ⟨first, _, hfirst⟩ := mapM_mem hdone task htask
        exact upgradeTask_again hfirst
      constructor
      · intro hself change hchange
        obtain ⟨task, htask, hthere⟩ := List.mem_filterMap.mp hchange
        exact (heach task htask).mp (hself task htask) change hthere
      · intro hself task htask
        exact (heach task htask).mpr fun change hchange => hself change (List.mem_filterMap.mpr ⟨task, htask, hchange⟩)
  · rename_i hother
    cases hok
    have hnone : changes (.obj payload) = [] := by
      cases hlookup : payload.lookup "tasks" with
      | none => simp [changes, listField, field, hlookup]
      | some value =>
          cases value with
          | arr tasks => exact absurd hlookup (hother tasks)
          | _ => simp [changes, listField, field, hlookup]
    refine ⟨by simp [hnone], ?_⟩
    intro later _ hlookup
    simp only [hnone, List.not_mem_nil, false_imp_iff, implies_true, iff_true]
    unfold upgradeTasks
    rw [hlookup]
    split
    · rename_i tasks htasks
      exact absurd htasks (hother tasks)
    · rfl

theorem upgradeTasks_has (hok : upgradeTasks h policies payload = .ok upgraded)
    (htasks : upgraded.lookup "tasks" = some (.arr tasks)) : Has upgraded "tasks" (.arr tasks) := by
  unfold upgradeTasks at hok
  split at hok
  · simp only [bind_ok, pure_ok] at hok
    obtain ⟨done, _, rfl⟩ := hok
    rw [lookup_setField_self, Option.some.injEq, Json.arr.injEq] at htasks
    exact htasks ▸ has_setField payload "tasks" (.arr done)
  · rename_i hother
    cases hok
    exact absurd htasks (hother tasks)

/-- What has the same tasks after the upgrade is the same. -/
theorem upgradeTasks_lookup (hok : upgradeTasks h policies payload = .ok upgraded)
    (hhas : ∀ tasks, payload.lookup "tasks" = some (.arr tasks) → Has payload "tasks" (.arr tasks))
    (hsame : upgraded.lookup "tasks" = payload.lookup "tasks") : upgraded = payload := by
  unfold upgradeTasks at hok
  split at hok
  · rename_i tasks htasks
    simp only [bind_ok, pure_ok] at hok
    obtain ⟨done, _, rfl⟩ := hok
    rw [lookup_setField_self, htasks, Option.some.injEq, Json.arr.injEq] at hsame
    rw [hsame]
    exact (hhas tasks htasks).setField_eq
  · cases hok
    rfl

/-- The changes of a document are kept if and only if each of them loses nothing. -/
theorem changes_kept {before after : List (Json φ)}
    (heach : List.Forall₂ (fun change changed => upgradeChange h policies change = .ok changed) before after) :
    (List.Forall₂ ArtifactsKept before after ∧ ∀ changed ∈ after, upgradeChange h policies changed = .ok changed) ↔
      ∀ change ∈ before, Lossless h policies change := by
  induction heach with
  | nil => simp
  | cons hfirst _ ih =>
      rw [List.forall₂_cons, List.forall_mem_cons, List.forall_mem_cons, ← ih, ← change_kept hfirst]
      constructor
      · rintro ⟨⟨hkept, hrest⟩, hself, hagain⟩
        exact ⟨⟨hkept, hself⟩, hrest, hagain⟩
      · rintro ⟨⟨hkept, hself⟩, hrest, hagain⟩
        exact ⟨⟨hkept, hrest⟩, hself, hagain⟩

/-- A decision that has a storage transition stays as it is. -/
theorem upgradeDecision_again {decision decisionDone : Json φ} (hok : upgradeDecision h policies decision = .ok decisionDone) :
    upgradeDecision h policies decisionDone = .ok decisionDone := by
  cases decision with
  | obj fields =>
      simp only [upgradeDecision] at hok
      split at hok
      · rename_i hcurrent
        cases hok
        exact if_pos hcurrent
      · split at hok
        · cases hok
        · cases hok
          refine if_pos ?_
          rw [lookup_setField_ne _ (by decide), lookup_setField_self]
          rfl
  | _ =>
      cases hok
      rfl

theorem upgradeDecisions_again (hok : upgradeDecisions h policies payload = .ok upgraded) :
    upgradeDecisions h policies (withVersion upgraded) = .ok (withVersion upgraded) := by
  unfold upgradeDecisions at hok
  split at hok
  · rename_i hnone
    cases hok
    unfold upgradeDecisions withVersion
    rw [lookup_setField_ne _ (by decide), hnone]
  · rename_i decisions hdecisions
    simp only [bind_ok, pure_ok] at hok
    obtain ⟨done, hdone, rfl⟩ := hok
    have hhas : Has (withVersion (setField payload "persistence_decisions" (.arr done))) "persistence_decisions" (.arr done) :=
      (has_setField payload "persistence_decisions" (.arr done)).set (by decide) _
    have hsame : done.mapM (upgradeDecision h policies) = .ok done := by
      rw [mapM_same]
      intro decision hdecision
      obtain ⟨first, _, hfirst⟩ := mapM_mem hdone decision hdecision
      exact upgradeDecision_again hfirst
    unfold upgradeDecisions
    rw [hhas.lookup]
    simp only [hsame, bind_ok, pure_ok]
    exact ⟨done, rfl, hhas.setField_eq⟩
  · cases hok

theorem withVersion_again (document : Fields φ) : withVersion (withVersion document) = withVersion document :=
  (has_setField document "persistence_contract_version" (.int 2)).setField_eq

/-- The version that was set is there when the tasks are upgraded. -/
theorem upgradeTasks_version (hok : upgradeTasks h policies (withVersion payload) = .ok upgraded) :
    withVersion upgraded = upgraded := by
  have hversion := has_setField payload "persistence_contract_version" (.int 2)
  unfold upgradeTasks at hok
  split at hok
  · simp only [bind_ok, pure_ok] at hok
    obtain ⟨done, _, rfl⟩ := hok
    exact (hversion.set (by decide) _).setField_eq
  · cases hok
    exact hversion.setField_eq

/-- What is set in a run that may go on. -/
def cleared (state : Fields φ) : Fields φ := setField (setField state "active_blocker" (.obj [])) "last_error" (.str "")

/-- A run stays as it is, or is cleared, or is cleared and pending. -/
theorem unblock_cases (h : Host φ) (resumeInterrupted : Bool) (state : Fields φ) :
    unblock h resumeInterrupted state = state ∨ unblock h resumeInterrupted state = cleared state ∨
      unblock h resumeInterrupted state = setField (cleared state) "status" (.str "pending") := by
  unfold unblock
  split
  · dsimp only
    split
    · split
      · exact .inr (.inr rfl)
      · exact .inr (.inl rfl)
    · split
      · exact .inr (.inr rfl)
      · exact .inl rfl
  · exact .inl rfl

theorem unblock_cleared {state : Fields φ} (hblocker : Has state "active_blocker" (.obj [])) :
    unblock h resumeInterrupted state = state := by
  have hcategory : h.show (field ([] : Fields φ) "category" (.str "")) = "" := rfl
  unfold unblock
  rw [hblocker.field]
  simp only [hcategory]
  rw [if_neg (by decide), if_neg (by simp)]

theorem unblock_again (state : Fields φ) :
    unblock h resumeInterrupted (unblock h resumeInterrupted state) = unblock h resumeInterrupted state := by
  have hcleared : Has (cleared state) "active_blocker" (.obj []) :=
    (has_setField state "active_blocker" (.obj [])).set (by decide) _
  rcases unblock_cases h resumeInterrupted state with hsame | hclear | hpending
  · rw [hsame, hsame]
  · rw [hclear, unblock_cleared hcleared]
  · rw [hpending, unblock_cleared (hcleared.set (by decide) _)]

theorem unblock_tasks (state : Fields φ) (value : Json φ) (hhas : Has state "tasks" value) :
    Has (unblock h resumeInterrupted state) "tasks" value := by
  have hcleared : Has (cleared state) "tasks" value := (hhas.set (by decide) _).set (by decide) _
  rcases unblock_cases h resumeInterrupted state with hsame | hclear | hpending
  · rwa [hsame]
  · rwa [hclear]
  · rw [hpending]
    exact hcleared.set (by decide) _

theorem unblock_lookup (state : Fields φ) : (unblock h resumeInterrupted state).lookup "tasks" = state.lookup "tasks" := by
  have hcleared : (cleared state).lookup "tasks" = state.lookup "tasks" := by
    rw [cleared, lookup_setField_ne _ (by decide), lookup_setField_ne _ (by decide)]
  rcases unblock_cases h resumeInterrupted state with hsame | hclear | hpending
  · rw [hsame]
  · rw [hclear, hcleared]
  · rw [hpending, lookup_setField_ne _ (by decide), hcleared]

theorem changes_congr {state other : Fields φ} (hsame : state.lookup "tasks" = other.lookup "tasks") :
    changes (.obj state) = changes (.obj other) := by
  simp [changes, listField, field, hsame]

end Documents

/-- An upgrade that succeeds is idempotent and keeps every artifact if and only if no change of a task loses one: none of
them that is none names an artifact, all migrations of the second version are in a directory of versions, and of the
first version none is made none, none has a path twice that becomes a contract, and none names a path but as a
migration artifact of its own. -/
theorem upgrade_kept (policies : Policies) (resumeInterrupted : Bool) (before after : Documents φ)
    (hok : upgradePersistenceContract h policies resumeInterrupted before = .ok after) :
    Kept h policies resumeInterrupted before after ↔
      ∀ change ∈ changes before.plan ++ changes before.state, Lossless h policies change := by
  obtain ⟨trace, plan, state⟩ := before
  unfold upgradePersistenceContract at hok
  split at hok
  · rename_i trace plan state htrace hplan hstate
    dsimp only at htrace hplan hstate
    subst htrace hplan hstate
    simp only [bind_ok, pure_ok] at hok
    obtain ⟨trace', htrace, plan', hplan, state', hstate, rfl⟩ := hok
    obtain ⟨hplanEach, hplanAgain⟩ := upgradeTasks_changes hplan
    obtain ⟨hstateEach, hstateAgain⟩ := upgradeTasks_changes hstate
    have hbefore : changes (.obj (withVersion plan)) = changes (.obj plan) :=
      changes_congr (lookup_setField_ne plan (by decide))
    have hafter : changes (.obj (unblock h resumeInterrupted state')) = changes (.obj state') :=
      changes_congr (unblock_lookup state')
    rw [hbefore] at hplanEach
    have hagain : upgradePersistenceContract h policies resumeInterrupted
          ⟨.obj (withVersion trace'), .obj plan', .obj (unblock h resumeInterrupted state')⟩ =
          .ok ⟨.obj (withVersion trace'), .obj plan', .obj (unblock h resumeInterrupted state')⟩ ↔
        (∀ change ∈ changes (.obj plan'), upgradeChange h policies change = .ok change) ∧
          ∀ change ∈ changes (.obj state'), upgradeChange h policies change = .ok change := by
      rw [← hplanAgain plan' (fun _ hhas => hhas) rfl,
        ← hstateAgain (unblock h resumeInterrupted state') (fun _ hhas => unblock_tasks state' _ hhas) (unblock_lookup state')]
      unfold upgradePersistenceContract
      simp only [upgradeDecisions_again htrace, withVersion_again, upgradeTasks_version hplan, bind_ok, pure_ok,
        Except.ok.injEq, exists_eq_left', Documents.mk.injEq, Json.obj.injEq, true_and]
      constructor
      · rintro ⟨plan'', hplan'', state'', hstate'', rfl, hsame⟩
        have htasks : state''.lookup "tasks" = (unblock h resumeInterrupted state').lookup "tasks" := by
          rw [← hsame, unblock_lookup]
        have hself : state'' = unblock h resumeInterrupted state' := by
          refine upgradeTasks_lookup hstate'' (fun tasks hlookup => ?_) htasks
          rw [unblock_lookup] at hlookup
          exact unblock_tasks state' _ (upgradeTasks_has hstate hlookup)
        exact ⟨hplan'', hself ▸ hstate''⟩
      · rintro ⟨hplan'', hstate''⟩
        exact ⟨plan', hplan'', _, hstate'', rfl, unblock_again state'⟩
    simp only [List.forall_mem_append]
    rw [← changes_kept hplanEach, ← changes_kept hstateEach]
    constructor
    · rintro ⟨hself, hplanKept, hstateKept⟩
      obtain ⟨hplanSelf, hstateSelf⟩ := hagain.mp hself
      exact ⟨⟨hplanKept, hplanSelf⟩, hafter ▸ hstateKept, hstateSelf⟩
    · rintro ⟨⟨hplanKept, hplanSelf⟩, hstateKept, hstateSelf⟩
      exact ⟨hagain.mpr ⟨hplanSelf, hstateSelf⟩, hplanKept, by rw [hafter]; exact hstateKept⟩
  · cases hok

/-! ### A first schema -/

theorem digit_ascii {c : Char} (h : c.isDigit = true) :
    (if c.isDigit = true then some (c.toNat - '0'.toNat) else none) = some (c.toNat - '0'.toNat) := if_pos h

def textHost : Host FloatLiteral where
  showOther _ := ""
  same a b := a.encode == b.encode
  int v := match v with | .int n => .ok (some n) | _ => .ok none
  nfc := id
  sha256 := String.ofList
  patternReason _ := ""
  isZero _ := false
  digit c := if c.isDigit = true then some (c.toNat - '0'.toNat) else none
  digit_ascii _ := digit_ascii

def baseline (path : String) : Json FloatLiteral :=
  .obj [("id", .str "001"), ("path", .str path), ("kind", .str "baseline")]

/-- A change of the second version with one migration. -/
def initialChange (path : String) : Fields FloatLiteral :=
  [("storage_transition", .str "initialize"), ("compatibility_policy", .str "not_applicable"),
    ("decision_id", .str "PERSIST-001"), ("target_ids", .arr [.str "database"]), ("to_version", .str "1"),
    ("migration_artifacts", .arr [baseline path])]

def planOf (change : Fields FloatLiteral) : Fields FloatLiteral :=
  [("tasks", .arr [.obj [("task_id", .str "T1"), ("persistence_change", .obj change)]])]

def initialDocuments (path : String) : Documents FloatLiteral := ⟨.obj [], .obj (planOf (initialChange path)), .obj []⟩

def upgradedChange (path : String) : Fields FloatLiteral :=
  withArtifacts (initialChange path) ([baseline path].filter (staysMigration textHost))
    (fromKeys ([baseline path].filterMap (contractPath textHost)))

def upgradedDocuments (path : String) : Documents FloatLiteral :=
  ⟨.obj (withVersion []), .obj (planOf (upgradedChange path) ++ [("persistence_contract_version", .int 2)]), .obj []⟩

theorem initial_changed (path : String) :
    upgradeChange textHost [] (.obj (initialChange path)) = .ok (.obj (upgradedChange path)) := by
  have hnone : isNone textHost (initialChange path) = false := by
    simp [isNone, initialChange, field, List.lookup, Host.show]
  have hcontracts : field (initialChange path) "contract_artifacts" (.arr []) = .arr [] := by
    simp [initialChange, field, List.lookup]
  have hmigrations : listField (initialChange path) "migration_artifacts" = [baseline path] := by
    simp [initialChange, listField, field, List.lookup]
  rw [upgradeChange_current (by simp [initialChange]), upgradeCurrent, hnone, hcontracts, hmigrations]
  simp [iterate, upgradedChange]
theorem initial_upgraded (path : String) :
    upgradePersistenceContract textHost [] false (initialDocuments path) = .ok (upgradedDocuments path) := by
  have hplan : upgradeTasks textHost [] (withVersion (planOf (initialChange path))) =
      .ok (planOf (upgradedChange path) ++ [("persistence_contract_version", .int 2)]) := by
    simp [upgradeTasks, withVersion, planOf, setField, upgradeTask, changeOf, field, List.lookup, initial_changed]
  have hstate : unblock textHost false [] = [] := rfl
  simp only [upgradePersistenceContract, initialDocuments, hplan, bind_ok]
  exact ⟨[], rfl, _, rfl, [], rfl, by rw [hstate]; rfl⟩
theorem baseline_stays (path : String) : staysMigration textHost (baseline path) = isVersioned path := by
  simp [staysMigration, baseline, field, List.lookup, Host.show]

theorem upgrade_kept_versions :
    Kept textHost [] false (initialDocuments "alembic/versions/001_init.py") (upgradedDocuments "alembic/versions/001_init.py") := by
  refine (upgrade_kept textHost [] false _ _ (initial_upgraded _)).mpr ?_
  intro change hchange
  have hthis : change = .obj (initialChange "alembic/versions/001_init.py") := by
    simpa [initialDocuments, planOf, changes, listField, field, List.lookup, taskChange, changeOf] using hchange
  rw [hthis, Lossless, if_pos (by simp [initialChange]), if_neg (by simp [isNone, initialChange, field, List.lookup, Host.show])]
  intro artifact hartifact
  have hbaseline : artifact ∈ [baseline "alembic/versions/001_init.py"] := by
    simpa [initialChange, listField, field, List.lookup] using (List.mem_filter.mp hartifact).1
  rw [List.mem_singleton.mp hbaseline, baseline_stays]
  decide +kernel

/-- A migration in another directory, which the checks of a plan accept, is no migration afterwards. -/
theorem baseline_demoted :
    upgradePersistenceContract textHost [] false (initialDocuments "migrations/001_init.sql") =
        .ok (upgradedDocuments "migrations/001_init.sql") ∧
      (changes (initialDocuments "migrations/001_init.sql").plan).map migrations = [[baseline "migrations/001_init.sql"]] ∧
      (changes (upgradedDocuments "migrations/001_init.sql").plan).map migrations = [[]] := by
  have hversioned : isVersioned "migrations/001_init.sql" = false := by decide +kernel
  refine ⟨initial_upgraded _, ?_, ?_⟩
  · simp [initialDocuments, planOf, changes, listField, field, List.lookup, taskChange, changeOf, migrations, initialChange,
      baseline, isObject]
  · simp [upgradedDocuments, planOf, changes, listField, field, List.lookup, taskChange, changeOf, migrations, upgradedChange,
      withArtifacts, setField, initialChange, baseline_stays, hversioned]

end AutoAgents.Upgrade
