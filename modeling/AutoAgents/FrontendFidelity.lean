import AutoAgents.FrontendSignals

/-! The two validators of frontend fidelity: of a requirement trace, against the trace before it, and of a task plan. -/

namespace AutoAgents.Fidelity

open Base
open Operator (stripText)

variable {φ : Type} (r : Reader φ)

/-! ### Traces -/

def listField (payload : Json φ) (key : String) : List (Json φ) :=
  match payload with
  | .obj fields =>
      match fields.lookup key with
      | some (.arr items) => items
      | _ => []
  | _ => []

/-- The requirements of a trace that are records. -/
def requirements (trace : Json φ) : List (Fields φ) := (listField trace "requirements").filterMap asMapping

/-- `trace_frontend_surfaces` -/
def surfaces (trace : Json φ) : List (Fields φ) := (listField trace "frontend_surfaces").filterMap asMapping

/-- `frontend_surface_requirement_ids` -/
def Reader.surfaceRequirementIds (trace : Json φ) : List String :=
  (((surfaces trace).flatMap fun surface => listField (.obj surface) "requirement_ids").map fun item =>
    stripText (r.text item)).filter (· ≠ "") |>.eraseDups

/-- The flag of the frontend scope, if it is one. -/
def scopeRequested (trace : Json φ) (b : Bool) : Bool :=
  match trace with
  | .obj fields =>
      match fields.lookup "frontend_scope" with
      | some (.obj scope) => isBool scope "requested" b
      | _ => false
  | _ => false

/-- A prototype will be generated for the surfaces of the scope. -/
def pendingPrototype (trace : Json φ) : Bool :=
  scopeRequested trace true &&
    match trace with
    | .obj fields =>
        match fields.lookup "frontend_scope" with
        | some scope => !(listField scope "surfaces").isEmpty
        | _ => false
    | _ => false

def Reader.tagged (requirement : Fields φ) : Bool := !(r.explicitSignals requirement).isEmpty

/-- The requirements of a list that a classification holds of, where it is asked only of those that pass a test. -/
def classified (test : Fields φ → Bool) (classify : Fields φ → Except Raised Bool) (l : List (Fields φ)) :
    Except Raised (List (Fields φ)) := do
  return (← (l.filter test).mapM fun q => do return if (← classify q) = true then [q] else []).flatten

/-- `frontend_fidelity_requirement_ids` -/
def Reader.fidelityIds (trace : Json φ) : Except Raised (List String) := do
  let known := (requirements trace).map r.id
  let explicit := (r.surfaceRequirementIds trace).filter known.contains
  let tagged := (((requirements trace).filter r.tagged).map r.id).filter (· ≠ "")
  let inScope := ((explicit ++ tagged).filter (· ≠ "")).eraseDups
  if inScope ≠ [] then
    return inScope
  let legacy ← classified (fun q => isActive q && isMandatory q) r.isFidelity (requirements trace)
  return (legacy.map r.id).filter (· ≠ "")

/-- `preservation_only_frontend_requirement_ids` -/
def Reader.preservationOnlyIds (trace : Json φ) : Except Raised (List String) := do
  if scopeRequested trace false = false then
    return []
  let preserved ← classified (fun q => isActive q && isMandatory q && r.id q ≠ "")
    (fun q => do if (← r.isFidelity q) = true then r.isPreservationOnly q else return false) (requirements trace)
  return preserved.map r.id

/-- `_requirements_by_id`: the last requirement with the identity. -/
def Reader.byId (trace : Json φ) (id : String) : Option (Fields φ) :=
  if id = "" then none else (requirements trace).reverse.find? fun q => r.id q == id

/-! ### Contracts -/

def contractFields : List String :=
  ["text", "source", "priority", "acceptance_oracles", "oracle_type", "oracle_strength", "evidence_boundary",
    "forbidden_proxy_oracles", "forbidden_patterns", "external_docs_required", "provider_reference", "provider_references"]

/-- `previous != current`, where only one value of a document is not equal to itself. -/
def Reader.differs (previous current : Json φ) : Bool :=
  decide (¬ previous.Equal r.value current) || decide (current.meaning r.value = .nonFinite .nan)

def Reader.fieldsChanged (previous current : Fields φ) : Bool :=
  contractFields.any fun key => r.differs ((previous.lookup key).getD .null) ((current.lookup key).getD .null)

def Reader.contractHash (requirement : Fields φ) : String := stripText (r.field requirement "contract_sha256")

/-- `_frontend_requirement_contract_changed` -/
def Reader.contractChanged (previous current : Fields φ) : Bool :=
  if r.contractHash previous ≠ "" ∧ r.contractHash current ≠ "" then r.contractHash previous ≠ r.contractHash current
  else r.fieldsChanged previous current

/-! ### The validator of traces -/

def Reader.supersedes (requirement : Fields φ) : Except Raised (List String) := do
  let items ← r.items requirement "supersedes"
  return (items.map fun item => stripText (r.text item)).filter (· ≠ "")

/-- A requirement of the trace before is active and a contract of fidelity. -/
def Reader.activeBefore (previous : Json φ) : List String → Except Raised Bool
  | [] => .ok false
  | id :: rest =>
      match r.byId previous id with
      | none => activeBefore previous rest
      | some old =>
          if isActive old = true then do
            if (← r.isFidelity old) = true then return true else activeBefore previous rest
          else activeBefore previous rest

def Reader.preservesLineage (previous : Json φ) (requirement : Fields φ) : Except Raised Bool := do
  let superseded ← r.supersedes requirement
  if superseded = [] then
    return false
  if (← r.isPreservationOnly requirement) = true then r.activeBefore previous superseded else return false

def introducedError (id : String) (details : Signals) : String :=
  "frontend_scope.requested=false forbids introducing active frontend fidelity requirement " ++
    (if id = "" then "<unknown>" else id) ++
    "; preserve historical contracts unchanged and keep regression checks in affected or release verification. " ++
    "Classification signals: " ++ details.format ++ "."

def changedError (id : String) (details : Signals) : String :=
  "frontend_scope.requested=false forbids changing frontend fidelity requirement " ++ id ++
    "; restore its previous contract. Classification signals: " ++ details.format ++ "."

/-- What an iteration without frontend work may not do with one requirement. -/
def Reader.frozenErrors (previous : Json φ) (requirement : Fields φ) : Except Raised (List String) := do
  if isActive requirement = false then
    return []
  let details ← r.signals requirement
  if details.found = false then
    return []
  match r.byId previous (r.id requirement) with
  | none =>
      if (← r.preservesLineage previous requirement) = true then return []
      return [introducedError (r.id requirement) details]
  | some old => return if r.contractChanged old requirement = true then [changedError (r.id requirement) details] else []

/-- What an iteration without frontend work may not do with the requirements; there may be no trace before. -/
def Reader.scopeErrors (trace previous : Json φ) : Except Raised (List String) :=
  match previous with
  | .null => .ok []
  | _ =>
      if scopeRequested trace false = true then do
        return (← (requirements trace).mapM (r.frozenErrors previous)).flatten
      else .ok []

def missingSurfaces (signals : List String) : String :=
  "input spec appears to require frontend prototype fidelity (" ++ ", ".intercalate (signals.take 5) ++
    "); requirements_trace.json must define a non-empty frontend_surfaces array with prototype_refs/viewports and active " ++
    "mandatory requirements whose acceptance_oracles preserve the page-level visual contract."

/-- The field is there, is not null, and is no array. -/
def notList : Option (Json φ) → Bool
  | none | some .null | some (.arr _) => false
  | _ => true

def surfaceName (index : Nat) : String := "frontend_surfaces[" ++ toString index ++ "]"

def Reader.surfaceErrors (index : Nat) (surface : Fields φ) : List String :=
  (if stripText (r.field surface "name") = "" then [surfaceName index ++ " must include a non-empty name."] else []) ++
    (if (listField (.obj surface) "prototype_refs").any (fun item => stripText (r.text item) ≠ "") = true then []
    else [surfaceName index ++ " must include non-empty prototype_refs pointing to the source prototype, screenshot, or " ++
      "design artifact."]) ++
    (if notList (surface.lookup "viewports") = true then [surfaceName index ++ ".viewports must be an array when present."]
    else [])

def untaggedError : String :=
  "frontend_surfaces is present, but no active mandatory requirement is tagged or worded as a frontend/prototype visual " ++
    "fidelity contract."

/-- `validate_frontend_fidelity_trace`; the trace before is null where there is none. -/
def Reader.validateTrace (trace : Json φ) (specText : String) (previous : Json φ) : Except Raised (List String) :=
  match trace with
  | .obj fields => do
      let signals := r.signalsFromText specText
      let inScope ← r.fidelityIds trace
      let active := (requirements trace).filter fun q => isActive q && isMandatory q && inScope.contains (r.id q)
      let frozen ← r.scopeErrors trace previous
      return frozen ++
        (if signals ≠ [] ∧ surfaces trace = [] ∧ pendingPrototype trace = false ∧ scopeRequested trace false = false then
          [missingSurfaces signals]
        else []) ++
        (if notList (fields.lookup "frontend_surfaces") = true then ["frontend_surfaces must be an array when present."]
        else []) ++
        ((surfaces trace).zipIdx.flatMap fun surface => r.surfaceErrors (surface.2 + 1) surface.1) ++
        (if surfaces trace ≠ [] ∧ active = [] then [untaggedError] else [])
  | _ => .ok []

/-! ### The validator of task plans -/

/-- The identities that a task binds, of those that are texts. -/
def Reader.boundIds (task : Fields φ) : Except Raised (List String) := do
  let items ← r.items task "requirement_ids"
  return items.filterMap fun item =>
    match item with
    | .str s => if stripText s = "" then none else some (stripText s)
    | _ => none

/-- `str(task.get("status", "pending")).strip() == "done"` -/
def Reader.isDone (task : Fields φ) : Bool := stripText ((task.lookup "status").elim "pending" r.text) == "done"

def boundError (taskId : String) (ids : List String) : String :=
  "task " ++ taskId ++ " binds preservation-only frontend requirements while frontend_scope.requested=false: " ++
    ", ".intercalate ids ++ ". Do not create standalone implementation or proof-rebinding work; run relevant regressions " ++
    "only as affected or release verification."

/-- What one task of the plan binds that is only to be preserved. -/
def Reader.taskErrors (preserved : List String) (index : Nat) (task : Json φ) : Except Raised (List String) :=
  match task with
  | .obj fields =>
      if r.isDone fields = true then .ok []
      else do
        let bound ← r.boundIds fields
        let invalid := (bound.filter preserved.contains).eraseDups.mergeSort fun a b => decide (a ≤ b)
        let taskId := stripText ((fields.lookup "task_id").elim ("#" ++ toString index) r.text)
        return if invalid = [] then [] else [boundError taskId invalid]
  | _ => .ok []

def Reader.bindingErrors (preserved : List String) (tasks : List (Json φ)) : Except Raised (List String) :=
  if preserved = [] then .ok []
  else do
    return (← tasks.zipIdx.mapM fun task => r.taskErrors preserved (task.2 + 1) task.1).flatten

/-- `_task_proofs_for_requirement` -/
def Reader.proofsFor (tasks : List (Fields φ)) (id hash : String) : List (Fields φ) :=
  (tasks.flatMap fun task => (listField (.obj task) "requirement_proofs").filterMap asMapping).filter fun proof =>
    stripText (r.field proof "requirement_id") == id &&
      (hash == "" || stripText (r.field proof "requirement_contract_sha256") == hash)

/-- `_proof_has_visual_evidence` -/
def Reader.hasVisualEvidence (proof : Fields φ) : Except Raised Bool := do
  let refs ← r.items proof "evidence_refs"
  let fields := r.field proof "proof_type" :: r.field proof "oracle_strength" :: r.field proof "evidence_boundary" :: refs.map r.text
  return visualEvidenceTerms.any (contains (r.lower (" ".intercalate fields)).toList)

/-- `any` of a test that may raise. -/
def anyM (test : Fields φ → Except Raised Bool) : List (Fields φ) → Except Raised Bool
  | [] => .ok false
  | q :: rest => do if (← test q) = true then return true else anyM test rest

def evidenceError (id : String) : String :=
  "frontend prototype fidelity requirement " ++ id ++ " needs page-level visual evidence (for example DOM/CSS checks plus " ++
    "Playwright screenshots or an optional vision judge); payload-only or internal-state tests are not sufficient."

def Reader.proofErrors (trace : Json φ) (tasks : List (Fields φ)) (id : String) : Except Raised (List String) := do
  let requirement := ((requirements trace).find? fun q => r.id q == id).getD []
  let proofs := r.proofsFor tasks id (r.contractHash requirement)
  if proofs.isEmpty = true then
    return []
  return if (← anyM r.hasVisualEvidence proofs) = true then [] else [evidenceError id]

/-- `validate_frontend_fidelity_task_plan`. Where no requirement is in the scope of the surfaces, nothing is reported. -/
def Reader.validateTaskPlan (plan trace : Json φ) (historical : List (Json φ)) : Except Raised (List String) :=
  match plan, trace with
  | .obj _, .obj _ => do
      let preserved ← r.preservationOnlyIds trace
      let tasks := listField plan "tasks"
      let errors ← r.bindingErrors preserved tasks
      if surfaces trace = [] then
        return errors
      let inScope ← r.fidelityIds trace
      let required := (((requirements trace).filter fun q => isActive q && isMandatory q && inScope.contains (r.id q)).map
        r.id).filter (· ≠ "")
      if required = [] then
        return []
      let evidence ← required.mapM (r.proofErrors trace ((tasks ++ historical).filterMap asMapping))
      return errors ++ evidence.flatten
  | _, _ => .ok []

end AutoAgents.Fidelity
