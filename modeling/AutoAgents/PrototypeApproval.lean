import AutoAgents.BaseSteps
import AutoAgents.DeliveryConsistency
import AutoAgents.EngineTasks

/-! The approval of a prototype. The chosen candidate is moved to its final place, the other candidates are
removed, the design lock is rewritten and a new candidate of the work item is committed; checks stand before,
between and after these effects, and the gate named on the command line is compared last. -/

namespace AutoAgents

open Base
open Git (Path Bytes Entry Tree Commit)

local instance lawfulApprovalPath : LawfulBEq Path := inferInstance

/-! ### Files and documents -/

/-- What the links of a workspace lead to: the bytes of a file, or a directory; and the files after one is
written through a link. -/
structure Links where
  read : Tree → Path → Option Bytes
  directory : Tree → Path → Bool
  through : Tree → Path → Entry → Tree

inductive Json
  | null
  | bool (value : Bool)
  | number (text : String)
  | string (text : String)
  | array (items : List Json)
  | object (fields : List (String × Json))

/-- `fields[key] = value`. -/
def setField (fields : List (String × Json)) (key : String) (value : Json) : List (String × Json) :=
  if fields.any (·.1 == key) then fields.map fun field => if field.1 == key then (key, value) else field
  else fields ++ [(key, value)]

/-- The texts of documents: `json.loads`, `json.dumps`, `str.replace` on what is read as text, and the
digests written into a lock. -/
structure Documents where
  loads : Bytes → Option Json
  dumps : Json → Bytes
  replace : String → String → Bytes → Option Bytes
  sha256 : Bytes → String
  contractSha256 : List (String × Json) → String

namespace Workspace

variable (links : Links) (ws : Workspace)

/-- Some file or link stands below the name. -/
def isDirectory (p : Path) : Bool := ws.files.keys.any fun q => p.isPrefixOf q && q != p

/-- `is_file`, which follows links. -/
def standsFile (p : Path) : Bool := ws.isFile p || ws.isSymlink p && (links.read ws.files p).isSome

/-- `is_dir`, which follows links. -/
def standsDirectory (p : Path) : Bool := ws.isDirectory p || ws.isSymlink p && links.directory ws.files p

/-- `read_bytes`. -/
def bytes (p : Path) : Option Bytes :=
  if ws.isSymlink p then links.read ws.files p else (ws.files.lookup p).map (·.data)

/-- A file is written, through a link where one stands. -/
def put (p : Path) (entry : Entry) : Workspace :=
  { ws with files :=
      if (p :: Git.ancestors p).any ws.isSymlink then links.through ws.files p entry
      else ws.files.insert p entry }

/-- `write_text`, which keeps the mode of the file. -/
def rewrite (p : Path) (data : Bytes) : Workspace :=
  ws.put links p ⟨((ws.files.lookup p).map (·.mode)).getD .regular, data⟩

def erase (p : Path) : Workspace := { ws with files := ws.files.erase p }

/-- `rmtree`. -/
def eraseBelow (p : Path) : Workspace :=
  { ws with files := (ws.files.keys.filter fun q => p.isPrefixOf q).foldl (fun files q => files.erase q) ws.files }

end Workspace

/-- An exception that is not a `ControlError`. -/
def raised {α : Type} (message : String) : Except ControlError α := .error ⟨"engine_exception", message, .engine⟩

/-- `artifact_hashes`: the bytes of a file stand for their digest. -/
def artifactHashes (ws : Workspace) (paths : List Path) : Except ControlError Tree :=
  paths.foldlM (fun hashes name => do
    ws.safeFile name
    match ws.files.lookup name with
    | some ⟨.regular, data⟩ | some ⟨.executable, data⟩ => pure (hashes.insert name ⟨.regular, data⟩)
    | _ => .error ⟨"approval_artifact", "Approval requires actual workspace files", .state⟩) ∅

def prototypeRoot : Path := [".auto-agents", "docs", "frontend_prototype"]

def prototypeHome : Path := prototypeRoot ++ ["home.html"]

def prototypeManifest : Path := prototypeRoot ++ ["manifest.json"]

def designRoot : Path := [".auto-agents", "docs", "frontend_design"]

def designLock : Path := [".auto-agents", "docs", "frontend_design.lock.json"]

/-- `sorted(paths)`: paths are compared part by part. -/
def sortParts (names : List Path) : List Path := names.insertionSort fun p q => p ≤ q

/-- The names of `frontend_design_artifact_hashes`. -/
def designArtifacts (links : Links) (ws : Workspace) : List Path :=
  sortParts (ws.files.keys.filter fun p =>
    (p == ["DESIGN.md"] || designRoot ∈ Git.ancestors p || prototypeRoot ∈ Git.ancestors p) &&
      ws.standsFile links p)

/-! ### Candidates -/

inductive VariantStatus
  | candidate
  | approved
  | rejected
  deriving DecidableEq, Repr

/-- A prototype that was presented, with the digests of its files. -/
structure Variant where
  id : String
  path : Path
  status : VariantStatus := .candidate
  hashes : Tree

/-- `candidates`. -/
def candidates (links : Links) (ws : Workspace) (w : Work) (variants : List Variant) :
    Except ControlError (List Variant) :=
  if variants.isEmpty && (ws.standsFile links prototypeHome || ws.standsDirectory links prototypeHome) then do
    let paths := if w.context.approvalArtifacts.isEmpty then [prototypeHome] else w.context.approvalArtifacts
    let hashes ← artifactHashes ws paths
    pure [{ id := "initial", path := prototypeHome, hashes }]
  else pure variants

/-- The candidate that is approved, among all that were presented; its files are those that were. -/
def chosen (links : Links) (ws : Workspace) (w : Work) (variants : List Variant) (identity : String) :
    Except ControlError (List Variant × Variant) := do
  let rows ← candidates links ws w variants
  let live := rows.filter (·.status == .candidate)
  let identity := match live with
    | [row] => if identity == "" then row.id else identity
    | _ => identity
  match live.find? (·.id == identity) with
  | none => .error ⟨"prototype", "Pass --variant for the candidate to approve", .state⟩
  | some selected =>
    let hashes ← artifactHashes ws selected.hashes.keys
    if (selected.hashes.keys.any fun name => hashes.lookup name != selected.hashes.lookup name) = true then
      .error ⟨"prototype", "Candidate changed since it was presented", .state⟩
    else pure (rows, selected)

/-! ### Effects -/

section

variable (links : Links) (documents : Documents)

/-- An artifact of the previous prototype is removed. -/
def removeArtifact (name : Path) : Step Workspace ControlError := fun ws => do
  ws.safeFile name
  if ws.isDirectory name = true then raised "Is a directory"
  else if (Git.ancestors name).any ws.isFile = true then raised "Not a directory"
  else pure (ws.erase name)

/-- A file of the candidate is copied to its place. -/
def copyArtifact (source name : Path) : Step Workspace ControlError := fun ws => do
  ws.safeFile name
  if source.isPrefixOf name = false then raised "is not in the subpath of the candidate"
  else
    let place := prototypeRoot ++ name.drop source.length
    let place := if ws.standsDirectory links place then place ++ name.getLast?.toList else place
    if ((Git.ancestors place).any fun p => ws.isFile p || ws.isSymlink p && !links.directory ws.files p) = true then
      raised "File exists"
    else
      match ws.files.lookup name with
      | none => raised "No such file or directory"
      | some entry =>
        if ws.standsDirectory links place = true then raised "Is a directory"
        else pure (ws.put links place entry)

/-- The manifest refers to the files in their new place. -/
def moveManifest (source : Path) : Step Workspace ControlError := fun ws =>
  match (ws.bytes links prototypeManifest).bind
      (documents.replace ("/".intercalate source) ("/".intercalate prototypeRoot)) with
  | none => raised "manifest.json"
  | some data => pure (ws.rewrite links prototypeManifest data)

/-- The working copy of an additional candidate is removed, approved or not. -/
def removeVariant (row : Variant) : Step Workspace ControlError := fun ws =>
  let folder := row.path.dropLast
  if row.path.tail.dropLast.contains "frontend_prototype_variants" && ws.standsDirectory links folder then
    if ws.isSymlink folder = true then raised "Cannot call rmtree on a symbolic link"
    else pure (ws.eraseBelow folder)
  else pure ws

/-- The lock names the approved candidate and seals the files of the design. -/
def approveLock (identity : String) : Step Workspace ControlError := fun ws =>
  if ws.standsFile links designLock then
    match (ws.bytes links designLock).bind documents.loads,
        (ws.bytes links prototypeManifest).bind documents.loads with
    | some (.object lock), some (.object manifest) =>
        let prototype := manifest.foldl (fun fields field => setField fields field.1 field.2)
          [("manifest_ref", .string ("/".intercalate prototypeManifest))]
        let hashes := (designArtifacts links ws).map fun p =>
          ("/".intercalate p, Json.string (((ws.bytes links p).map documents.sha256).getD ""))
        let lock := setField lock "status" (.string "approved")
        let lock := setField lock "variant_id" (.string identity)
        let lock := setField lock "prototype" (.object prototype)
        let lock := setField lock "artifact_sha256" (.object hashes)
        let lock := setField lock "contract_sha256" (.string (documents.contractSha256 lock))
        pure (ws.rewrite links designLock (documents.dumps (.object lock)))
    | _, _ => raised "The lock or the manifest is no object"
  else pure ws

/-- The artifacts that an approved prototype covers. -/
def approvedArtifacts (ws : Workspace) : List Path :=
  designArtifacts links ws ++ if ws.standsFile links designLock then [designLock] else []

/-- The artifacts of the approved candidate are hashed. -/
def hashApproved : Step Workspace ControlError := fun ws => do
  let _ ← artifactHashes ws (approvedArtifacts links ws)
  pure ws

/-- What the approval writes into the workspace, in order. -/
def approvalSteps (w : Work) (rows : List Variant) (selected : Variant) : List (Step Workspace ControlError) :=
  let source := selected.path.dropLast
  (if source = prototypeRoot then [] else
    (w.context.approvalArtifacts.filter (below prototypeRoot)).map removeArtifact ++
      (Git.sortNames selected.hashes.keys).map (copyArtifact links source) ++
      [moveManifest links documents source]) ++
    rows.map (removeVariant links) ++
    [approveLock links documents selected.id, hashApproved links]

/-- The candidates as they are kept: one is approved, and all others are rejected. -/
def decided (identity : String) (hashes : Tree) (rows : List Variant) : List Variant :=
  rows.map fun row =>
    if row.id = identity then { row with status := .approved, path := prototypeHome, hashes }
    else { row with status := .rejected }

end

/-! ### The command -/

/-- What an approval touches: the ledger, the candidates kept with the work item, its workspace, and its
candidate ref. -/
structure Desk where
  db : DB
  variants : List Variant
  workspace : Workspace
  ref : Option Commit

/-- A change of the workspace alone. -/
def Desk.onWorkspace (step : Step Workspace ControlError) : Step Desk ControlError := fun d => do
  let workspace ← step d.workspace
  pure { d with workspace }

/-- The workspace commits its candidate, and the candidate ref follows. -/
def Desk.commit (tool : Tool) (w : Work) (c : Contract) (d : Desk) : Except ControlError (Candidate × Desk) := do
  let (made, workspace) ← candidate tool d.workspace c.source (c.checks.flatMap (·.outputs)) [] none
    ("candidate: " ++ w.id)
  pure (made, { d with workspace, ref := some made.revision })

/-- The decision is recorded. -/
def Desk.record (w : Work) (hashes : Tree) (made : Option (List Path × Candidate)) (rows : List Variant) (d : Desk) :
    Except ControlError (Unit × Desk) := do
  let db ← (approve w hashes made).alone (fun call db => call.exec db) d.db
  pure ((), { d with db, variants := rows })

section

variable (links : Links) (documents : Documents) (tool : Tool)

/-- `prototypes.approve`: the candidates as they are decided, the artifacts covered, and the new candidate
of the work item. -/
def approvePrototype (w : Work) (c : Contract) (identity : String) :
    EStateM ControlError Desk (List Variant × List Path × Candidate) := do
  let (rows, selected) ← consult fun d => chosen links d.workspace w d.variants identity
  Step.takeAll ((approvalSteps links documents w rows selected).map Desk.onWorkspace)
  let artifacts ← consult fun d => pure (approvedArtifacts links d.workspace)
  let hashes ← consult fun d => artifactHashes d.workspace artifacts
  let made ← attempt (Desk.commit tool w c)
  pure (decided selected.id hashes rows, artifacts, made)

/-- `Gate` as it is written on the command line. -/
def Gate.name : Gate → String
  | .requirements => "requirements"
  | .prototype => "prototype"
  | .architecture => "architecture"
  | .release => "release"
  | .persistenceReset => "persistence-reset"
  | .legacyPrototype => "legacy_prototype"
  | .legacyProofs => "legacy_proofs"

/-- The work item whose approval is pending, the gate, and its contract. -/
def DB.undecided (db : DB) (id : String) : Except ControlError (Work × Gate × Contract) := do
  let w ← db.work id
  if w.status ≠ .waiting ∨ w.context.waitingFor ≠ some .approval then
    .error ⟨"approval", "No pending approval", .state⟩
  else
    match w.context.approval with
    | none => raised "'approval'"
    | some pending =>
      let c ← db.contract w.contract
      pure (w, pending, c)

/-- The artifacts that are approved are hashed, the gate is compared, and the decision is recorded. -/
def recordApproval (gate : String) (w : Work) (pending : Gate) (made : Option (List Variant × List Path × Candidate)) :
    EStateM ControlError Desk Unit := do
  let hashes ← consult fun d =>
    artifactHashes d.workspace ((made.map (·.2.1)).getD w.context.approvalArtifacts)
  consult fun _ =>
    if gate ≠ "" ∧ gate ≠ pending.name then
      .error ⟨"approval", "Gate differs from the pending decision", .state⟩
    else pure ()
  attempt fun d => Desk.record w hashes (made.map (·.2)) ((made.map (·.1)).getD d.variants) d

/-- `approve`, of the work item whose decision is pending, with `--gate` and `--variant`. -/
def approveCommand (id gate identity : String) : EStateM ControlError Desk Unit := do
  let (w, pending, c) ← consult fun d => d.db.undecided id
  if pending = .prototype then
    let made ← approvePrototype links documents tool w c identity
    recordApproval gate w pending (some made)
  else recordApproval gate w pending none

end

/-! ### What a refusal leaves behind -/

section

variable {links : Links} {documents : Documents} {tool : Tool} {d u : Desk} {ws ws' : Workspace} {w : Work}
  {c : Contract} {made : Candidate} {id gate identity : String} {steps : List (Step Workspace ControlError)}

theorem Workspace.record_files (ws : Workspace) (names : List Path) (note : String) :
    (ws.record names note).files = ws.files := by
  unfold Workspace.record
  split
  · rfl
  · split <;> rfl

/-- The digests of artifacts depend on the files alone. -/
theorem artifactHashes_congr (h : ws'.files = ws.files) (paths : List Path) :
    artifactHashes ws' paths = artifactHashes ws paths := by
  have hsafe : ∀ p, ws'.safeFile p = ws.safeFile p := by
    intro p
    have hlink : ws'.isSymlink = ws.isSymlink := by
      funext q
      rw [Workspace.isSymlink, Workspace.isSymlink, h]
    rw [Workspace.safeFile, Workspace.safeFile, hlink]
  unfold artifactHashes
  congr 1
  funext hashes name
  rw [hsafe, h]

theorem Desk.onWorkspace_ok {step : Step Workspace ControlError} :
    Desk.onWorkspace step d = .ok u ↔ ∃ ws, step d.workspace = .ok ws ∧ u = { d with workspace := ws } := by
  rw [Desk.onWorkspace, bind_ok]
  constructor
  · rintro ⟨ws, hws, hu⟩
    exact ⟨ws, hws, (pure_ok.mp hu).symm⟩
  · rintro ⟨ws, hws, rfl⟩
    exact ⟨ws, hws, rfl⟩

theorem Desk.leads_onWorkspace : Step.Leads (steps.map Desk.onWorkspace) d u ↔
    ∃ ws, Step.Leads steps d.workspace ws ∧ u = { d with workspace := ws } := by
  induction steps generalizing d with
  | nil =>
      rw [List.map_nil, Step.leads_nil]
      constructor
      · rintro rfl
        exact ⟨d.workspace, Step.leads_nil.mpr rfl, rfl⟩
      · rintro ⟨ws, hleads, rfl⟩
        rw [← Step.leads_nil.mp hleads]
  | cons step steps ih =>
      rw [List.map_cons, Step.leads_cons]
      constructor
      · rintro ⟨m, hstep, hrest⟩
        obtain ⟨ws, hws, rfl⟩ := Desk.onWorkspace_ok.mp hstep
        obtain ⟨ws', hleads, rfl⟩ := ih.mp hrest
        exact ⟨ws', Step.leads_cons.mpr ⟨ws, hws, hleads⟩, rfl⟩
      · rintro ⟨ws', hleads, rfl⟩
        obtain ⟨ws, hws, hrest⟩ := Step.leads_cons.mp hleads
        exact ⟨{ d with workspace := ws }, Desk.onWorkspace_ok.mpr ⟨ws, hws, rfl⟩, ih.mpr ⟨ws', hrest, rfl⟩⟩

/-- None of the steps refuses once those before it have changed the workspace. -/
def Unbroken (steps : List (Step Workspace ControlError)) (ws : Workspace) : Prop :=
  ∀ done step rest ws', steps = done ++ step :: rest → Step.Leads done ws ws' →
    (∃ next, step ws' = .ok next) ∨ ws' = ws

theorem Desk.harmless_steps : Harmless (Step.takeAll (steps.map Desk.onWorkspace)) d d ↔
    Unbroken steps d.workspace := by
  rw [Step.harmless_takeAll]
  constructor
  · rintro h done step rest ws' rfl hleads
    have hdesk := h (done.map Desk.onWorkspace) (Desk.onWorkspace step) (rest.map Desk.onWorkspace)
      { d with workspace := ws' } (by simp) (Desk.leads_onWorkspace.mpr ⟨ws', hleads, rfl⟩)
    rcases hdesk with ⟨v, hv⟩ | hsame
    · obtain ⟨next, hnext, -⟩ := Desk.onWorkspace_ok.mp hv
      exact Or.inl ⟨next, hnext⟩
    · exact Or.inr (congrArg Desk.workspace hsame)
  · intro h done step rest u heq hleads
    obtain ⟨done', rest', rfl, rfl, hrest⟩ := List.map_eq_append_iff.mp heq
    obtain ⟨step', rest'', rfl, rfl, rfl⟩ := List.map_eq_cons_iff.mp hrest
    obtain ⟨ws, hws, rfl⟩ := Desk.leads_onWorkspace.mp hleads
    rcases h done' step' rest'' ws rfl hws with ⟨next, hnext⟩ | rfl
    · exact Or.inl ⟨_, Desk.onWorkspace_ok.mpr ⟨next, hnext, rfl⟩⟩
    · exact Or.inr rfl

/-- `candidate`, as an approval calls it. -/
def recommit (tool : Tool) (w : Work) (c : Contract) (ws : Workspace) : Except ControlError (Candidate × Workspace) :=
  candidate tool ws c.source (c.checks.flatMap (·.outputs)) [] none ("candidate: " ++ w.id)

theorem Desk.commit_ok : Desk.commit tool w c d = .ok (made, u) ↔
    ∃ ws, recommit tool w c d.workspace = .ok (made, ws) ∧
      u = { d with workspace := ws, ref := some made.revision } := by
  simp only [Desk.commit, recommit, bind_ok, pure_ok, Prod.exists, Prod.mk.injEq]
  constructor
  · rintro ⟨made', ws, hmade, rfl, rfl⟩
    exact ⟨ws, hmade, rfl⟩
  · rintro ⟨ws, hmade, rfl⟩
    exact ⟨made, ws, hmade, rfl, rfl⟩

/-- What is asked of the steps after a candidate is chosen: each check that refuses comes before the first
change, or after changes that leave everything as it was. -/
structure Finds (links : Links) (documents : Documents) (tool : Tool) (d : Desk) (w : Work) (c : Contract)
    (rows : List Variant) (selected : Variant) (gate : String) : Prop where
  steps : Unbroken (approvalSteps links documents w rows selected) d.workspace
  commit : ∀ ws, Step.Leads (approvalSteps links documents w rows selected) d.workspace ws →
    (∃ r, recommit tool w c ws = .ok r) ∨ ws = d.workspace
  gate : ∀ ws made ws', Step.Leads (approvalSteps links documents w rows selected) d.workspace ws →
    recommit tool w c ws = .ok (made, ws') →
      gate = "" ∨ gate = "prototype" ∨ ws' = d.workspace ∧ d.ref = some made.revision

/-- The last step has hashed the artifacts that the approval covers. -/
theorem approvalSteps_hashes {rows : List Variant} {selected : Variant} {ws₀ : Workspace}
    (h : Step.Leads (approvalSteps links documents w rows selected) ws₀ ws) :
    ∃ hashes, artifactHashes ws (approvedArtifacts links ws) = .ok hashes := by
  obtain ⟨mid, -, hlast⟩ := Step.leads_append.mp h
  obtain ⟨locked, -, hlast⟩ := Step.leads_cons.mp hlast
  obtain ⟨hashed, hhash, hnil⟩ := Step.leads_cons.mp hlast
  obtain ⟨hashes, hhashes, hsame⟩ := bind_ok.mp hhash
  rw [← Step.leads_nil.mp hnil, ← pure_ok.mp hsame]
  exact ⟨hashes, hhashes⟩

/-- The workspace keeps its files when it commits a candidate. -/
theorem recommit_files (h : recommit tool w c ws = .ok (made, ws')) : ws'.files = ws.files := by
  obtain ⟨-, -, -, -, -, -, rfl, -⟩ := candidate_ok h
  exact ws.record_files _ _

/-- A decision that is pending can be recorded. -/
theorem Desk.record_total {hashes : Tree} {made : Option (List Path × Candidate)} {rows : List Variant}
    {pending : Gate} (hfind : d.db.works.find w.id = some w) (hstatus : w.status = .waiting)
    (hwaiting : w.context.waitingFor = some .approval) (hpending : w.context.approval = some pending) :
    ∃ r, Desk.record w hashes made rows d = .ok r := by
  unfold Desk.record approve
  rw [hpending]
  simp only [hstatus, hwaiting, ne_eq, not_true_eq_false, or_self, if_false]
  simp [Program.one, Prog.alone, Call.exec, DB.transition, DB.transitionRow, hfind, hstatus, Status.transitions]

/-- What `prototypes.approve` returns, and the desk it leaves. -/
theorem approvePrototype_ok {rows' : List Variant} {artifacts : List Path} :
    approvePrototype links documents tool w c identity d = .ok (rows', artifacts, made) u ↔
      ∃ rows selected ws hashes ws', chosen links d.workspace w d.variants identity = .ok (rows, selected) ∧
        Step.Leads (approvalSteps links documents w rows selected) d.workspace ws ∧
        artifactHashes ws artifacts = .ok hashes ∧ recommit tool w c ws = .ok (made, ws') ∧
        rows' = decided selected.id hashes rows ∧ artifacts = approvedArtifacts links ws ∧
        u = { d with workspace := ws', ref := some made.revision } := by
  unfold approvePrototype
  constructor
  · intro h
    obtain ⟨⟨rows, selected⟩, _, hchosen, hrest⟩ := estate_bind_ok.mp h
    obtain ⟨hchosen, rfl⟩ := consult_ok.mp hchosen
    obtain ⟨_, _, hsteps, hrest⟩ := estate_bind_ok.mp hrest
    obtain ⟨ws, hleads, rfl⟩ := Desk.leads_onWorkspace.mp (Step.takeAll_ok.mp hsteps)
    obtain ⟨_, _, hread, hrest⟩ := estate_bind_ok.mp hrest
    obtain ⟨hartifacts, rfl⟩ := consult_ok.mp hread
    obtain rfl := pure_ok.mp hartifacts
    obtain ⟨hashes, _, hread, hrest⟩ := estate_bind_ok.mp hrest
    obtain ⟨hhashes, rfl⟩ := consult_ok.mp hread
    obtain ⟨made', _, hcommit, hrest⟩ := estate_bind_ok.mp hrest
    obtain ⟨ws', hmade, rfl⟩ := Desk.commit_ok.mp (attempt_ok.mp hcommit)
    cases hrest
    exact ⟨rows, selected, ws, hashes, ws', hchosen, hleads, hhashes, hmade, rfl, rfl, rfl⟩
  · rintro ⟨rows, selected, ws, hashes, ws', hchosen, hleads, hhashes, hmade, rfl, rfl, rfl⟩
    refine estate_bind_ok.mpr ⟨(rows, selected), d, consult_ok.mpr ⟨hchosen, rfl⟩, ?_⟩
    refine estate_bind_ok.mpr ⟨(), { d with workspace := ws }, ?_, ?_⟩
    · exact Step.takeAll_ok.mpr (Desk.leads_onWorkspace.mpr ⟨ws, hleads, rfl⟩)
    refine estate_bind_ok.mpr ⟨_, _, consult_ok.mpr ⟨rfl, rfl⟩, ?_⟩
    refine estate_bind_ok.mpr ⟨hashes, _, consult_ok.mpr ⟨hhashes, rfl⟩, ?_⟩
    exact estate_bind_ok.mpr ⟨made, _, attempt_ok.mpr (Desk.commit_ok.mpr ⟨ws', hmade, rfl⟩), rfl⟩

/-- When `prototypes.approve` leaves everything as it was, where it refuses. -/
theorem approvePrototype_harmless : Harmless (approvePrototype links documents tool w c identity) d d ↔
    ∀ rows selected, chosen links d.workspace w d.variants identity = .ok (rows, selected) →
      Unbroken (approvalSteps links documents w rows selected) d.workspace ∧
      ∀ ws, Step.Leads (approvalSteps links documents w rows selected) d.workspace ws →
        (∃ r, recommit tool w c ws = .ok r) ∨ ws = d.workspace := by
  unfold approvePrototype
  rw [harmless_bind, and_iff_right (harmless_consult.mpr (Or.inr rfl))]
  constructor
  · intro h rows selected hchosen
    have hrest := h (rows, selected) d (consult_ok.mpr ⟨hchosen, rfl⟩)
    obtain ⟨hsteps, hrest⟩ := harmless_bind.mp hrest
    refine ⟨Desk.harmless_steps.mp hsteps, fun ws hleads => ?_⟩
    have hafter := hrest () _ (Step.takeAll_ok.mpr (Desk.leads_onWorkspace.mpr ⟨ws, hleads, rfl⟩))
    obtain ⟨hashes, hhashes⟩ := approvalSteps_hashes hleads
    have hhashed := (harmless_bind.mp hafter).2 _ _ (consult_ok.mpr ⟨rfl, rfl⟩)
    have hcommit := (harmless_bind.mp hhashed).2 hashes _ (consult_ok.mpr ⟨hhashes, rfl⟩)
    rcases harmless_attempt.mp (harmless_bind.mp hcommit).1 with ⟨⟨made, v⟩, hmade⟩ | hsame
    · obtain ⟨ws', hws', -⟩ := Desk.commit_ok.mp hmade
      exact Or.inl ⟨_, hws'⟩
    · exact Or.inr (congrArg Desk.workspace hsame)
  · rintro h ⟨rows, selected⟩ u hread
    obtain ⟨hchosen, rfl⟩ := consult_ok.mp hread
    obtain ⟨hsteps, hcommit⟩ := h rows selected hchosen
    refine harmless_bind.mpr ⟨Desk.harmless_steps.mpr hsteps, fun _ v hv => ?_⟩
    obtain ⟨ws, hleads, rfl⟩ := Desk.leads_onWorkspace.mp (Step.takeAll_ok.mp hv)
    obtain ⟨hashes, hhashes⟩ := approvalSteps_hashes hleads
    refine harmless_bind.mpr ⟨harmless_consult.mpr (Or.inl ⟨_, rfl⟩), fun artifacts v hv => ?_⟩
    obtain ⟨hartifacts, rfl⟩ := consult_ok.mp hv
    obtain rfl := pure_ok.mp hartifacts
    refine harmless_bind.mpr ⟨harmless_consult.mpr (Or.inl ⟨hashes, hhashes⟩), fun hashes' v hv => ?_⟩
    obtain ⟨-, rfl⟩ := consult_ok.mp hv
    refine harmless_bind.mpr ⟨harmless_attempt.mpr ?_, fun _ _ _ => harmless_pure⟩
    rcases hcommit ws hleads with ⟨⟨made, ws'⟩, hmade⟩ | rfl
    · exact Or.inl ⟨_, Desk.commit_ok.mpr ⟨ws', hmade, rfl⟩⟩
    · exact Or.inr rfl

theorem DB.undecided_ok {db : DB} {pending : Gate} (h : db.undecided id = .ok (w, pending, c)) :
    db.works.find w.id = some w ∧ w.status = .waiting ∧ w.context.waitingFor = some .approval ∧
      w.context.approval = some pending := by
  obtain ⟨row, hrow, hrest⟩ := bind_ok.mp h
  obtain ⟨hstatus, hrest⟩ := guard_ok.mp hrest
  rw [not_or, not_not, not_not] at hstatus
  cases hpending : row.context.approval with
  | none =>
      rw [hpending] at hrest
      cases hrest
  | some gate =>
      rw [hpending] at hrest
      obtain ⟨found, -, hpair⟩ := bind_ok.mp hrest
      cases hpair
      have hfind : db.works.find id = some w := by
        unfold DB.work at hrow
        split at hrow <;> simp_all
      refine ⟨?_, hstatus.1, hstatus.2, hpending⟩
      rwa [show w.id = id from (Table.find_some hfind).2]

theorem recordApproval_refused {pending : Gate} {result : Option (List Variant × List Path × Candidate)} :
    Harmless (recordApproval gate w pending result) d d := by
  refine harmless_bind.mpr ⟨harmless_consult.mpr (Or.inr rfl), fun hashes _ hread => ?_⟩
  obtain ⟨-, rfl⟩ := consult_ok.mp hread
  refine harmless_bind.mpr ⟨harmless_consult.mpr (Or.inr rfl), fun _ _ hread => ?_⟩
  obtain ⟨-, rfl⟩ := consult_ok.mp hread
  exact harmless_attempt.mpr (Or.inr rfl)

/-- After a prototype is approved, only the gate is a reason to refuse. -/
theorem recordApproval_harmless {rows : List Variant} {artifacts : List Path} {hashes : Tree}
    (hundecided : d.db.undecided id = .ok (w, .prototype, c))
    (hhashes : artifactHashes u.workspace artifacts = .ok hashes) (hdb : u.db = d.db) :
    Harmless (recordApproval gate w .prototype (some (rows, artifacts, made))) d u ↔
      gate = "" ∨ gate = "prototype" ∨ u = d := by
  obtain ⟨hfind, hstatus, hwaiting, hpending⟩ := DB.undecided_ok hundecided
  constructor
  · intro h
    have hnext := (harmless_bind.mp h).2 hashes u (consult_ok.mpr ⟨hhashes, rfl⟩)
    rcases harmless_consult.mp (harmless_bind.mp hnext).1 with ⟨_, hgate⟩ | hsame
    · have hgate := (guard_ok.mp hgate).1
      by_cases hempty : gate = ""
      · exact Or.inl hempty
      · exact Or.inr (Or.inl (not_not.mp fun hne => hgate ⟨hempty, hne⟩))
    · exact Or.inr (Or.inr hsame)
  · intro hgate
    refine harmless_bind.mpr ⟨harmless_consult.mpr (Or.inl ⟨hashes, hhashes⟩), fun hashes' _ hread => ?_⟩
    obtain ⟨-, rfl⟩ := consult_ok.mp hread
    refine harmless_bind.mpr ⟨harmless_consult.mpr ?_, fun _ _ hread => ?_⟩
    · rcases hgate with hempty | hname | hsame
      · exact Or.inl ⟨(), if_neg fun hboth => hboth.1 hempty⟩
      · exact Or.inl ⟨(), if_neg fun hboth => hboth.2 hname⟩
      · exact Or.inr hsame
    · obtain ⟨-, rfl⟩ := consult_ok.mp hread
      exact harmless_attempt.mpr (Or.inl (Desk.record_total (hdb ▸ hfind) hstatus hwaiting hpending))

end

/-! ### A gate that differs -/

/-- A run with a prototype that waits for its approval. -/
def presentedTurns (candidate : Candidate) : List (Turn Move) :=
  [.begin 0 (.start "flow" "root" .run "goal" candidate.source {} {} "pytest tests/a.py" none 30), .go 0] ++
    documentTurns candidate 1 .clarify { frontend := true } ++
    documentTurns candidate 3 .prototype { artifacts := [prototypeHome, prototypeManifest] }

/-- A page and a manifest. -/
def package (folder : Path) (home manifest : Bytes) : Tree :=
  (AList.singleton (folder ++ ["home.html"]) ⟨.regular, home⟩).insert (folder ++ ["manifest.json"]) ⟨.regular, manifest⟩

/-- The folder of an additional prototype. -/
def variantFolder : Path := [".auto-agents", "docs", "frontend_prototype_variants", "v1"]

/-- The first prototype and an additional one, both committed. -/
def presentedFiles : Tree :=
  ((package prototypeRoot [1] [2]).insert (variantFolder ++ ["home.html"]) ⟨.regular, [3]⟩).insert
    (variantFolder ++ ["manifest.json"]) ⟨.regular, [4]⟩

def presentedDesk : Desk where
  db := (engineAfter (presentedTurns docsCandidate)).now
  variants :=
    [{ id := "initial", path := prototypeHome, hashes := package prototypeRoot [1] [2] },
      { id := "v1", path := variantFolder ++ ["home.html"], hashes := package variantFolder [3] [4] }]
  workspace :=
    { head := .initial presentedFiles "presented", index := presentedFiles, files := presentedFiles
      ignored := fun _ => false }
  ref := none

def noLinks : Links := ⟨fun _ _ => none, fun _ _ => false, fun files _ _ => files⟩

/-- Manifests that name no file, and no lock. -/
def plainDocuments : Documents :=
  ⟨fun _ => none, fun _ => [], fun _ _ data => some data, fun _ => "", fun _ => ""⟩

/-- The state that a run leaves. -/
def leftBy {ε σ α : Type} : EStateM.Result ε σ α → σ
  | .ok _ s => s
  | .error _ s => s

/-- The error of a run that raises one. -/
def refusal {ε σ α : Type} : EStateM.Result ε σ α → Option ε
  | .ok _ _ => none
  | .error e _ => some e

theorem refused_of_refusal {ε σ α : Type} {r : EStateM.Result ε σ α} {e : ε} (h : refusal r = some e) : r = .error e (leftBy r) := by
  cases r with
  | ok a s => cases h
  | error e' s => rw [← Option.some.inj h]; rfl

theorem accepted_of_refusal {ε σ : Type} {r : EStateM.Result ε σ Unit} (h : refusal r = none) : r = .ok () (leftBy r) := by
  cases r with
  | ok a s => rfl
  | error e s => cases h

/-- What the approval with another gate leaves. -/
def misnamedDesk : Desk := leftBy (approveCommand noLinks plainDocuments plainTool "root" "architecture" "v1" presentedDesk)

end AutoAgents
