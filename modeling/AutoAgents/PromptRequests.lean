import AutoAgents.PromptSpecs

/-! Requests with a specification: the preparation for a runtime, and the handoff that gives up the native session. -/

namespace AutoAgents.Prompting

open Base

variable {φ : Type} [FloatText φ]

/-- A request that has a specification, with its resolved directory. A stage that only reads has a sandbox. -/
@[ext]
structure Request (φ : Type) where
  prompt : String
  spec : PromptSpec
  effort : String
  cwd : String
  attachments : List String := []
  resumeSessionId : String := ""
  resumeProvider : String := ""
  resumePromptHash : String := ""
  sandboxMode : String := ""
  modelAdaptation : String := "auto"
  isContinuation : Bool := false
  continuation : String := ""
  fallbackContinuation : Option String := none
  fallbackHash : String := ""
  metadata : Fields φ := []
  confined : spec.purpose ∈ readOnly → sandboxMode ≠ ""

/-- `request.prompt_continuation or (str(request.prompt) if request.prompt_is_continuation else "")` -/
def Request.pending (r : Request φ) : String :=
  if r.continuation ≠ "" then r.continuation else if r.isContinuation = true then r.prompt else ""

/-! ### Handoffs -/

/-- The replacement that is stored for the pending text, by its hash. -/
def Host.transferred (h : Host) (r : Request φ) : String :=
  match r.fallbackContinuation with
  | some fallback => if r.fallbackHash ≠ "" ∧ h.digest r.pending = r.fallbackHash then fallback else r.pending
  | none => r.pending

/-- A text is added to the contexts, unless it is empty or stands there already. -/
def addContext (contexts : List ContextBlock) (text source : String) : List ContextBlock :=
  if text ≠ "" ∧ (contexts.any fun c => c.text == text) = false then contexts ++ [⟨text, source, ""⟩] else contexts

def keptKeys : List String :=
  ["stage_attempt", "delta_candidate_bytes", "delta_fallback_reason", "compatibility_changes", "settings_changes"]

/-- `fresh_request` -/
def Host.freshRequest (h : Host) (r : Request φ) (reason progress : String) : Request φ :=
  { r with
    spec := { r.spec with
      contexts := addContext (addContext r.spec.contexts (h.transferred r) "previous progress") progress "provider handoff" }
    resumeSessionId := ""
    resumeProvider := ""
    resumePromptHash := ""
    isContinuation := false
    continuation := ""
    metadata := r.metadata.filter (fun field => keptKeys.contains field.1) ++ [("fallback_reason", .str reason)] }

/-! ### Preparation -/

def attachmentContext (attachments : List String) : ContextBlock :=
  ⟨"Inspect these attached images using the Read tool:\n" ++
    String.ofList (['\n'].intercalate (attachments.map String.toList)), "attachments", ""⟩

/-- The attachments, where the provider reads them as files. -/
def withAttachments (spec : PromptSpec) (attachments : List String) (runtime : ProviderRuntime) : PromptSpec :=
  if attachments ≠ [] ∧ runtime.provider = "claude-code" then
    { spec with contexts := spec.contexts ++ [attachmentContext attachments] }
  else spec

/-- What the prompt shows of the specification: a continuation stands alone. -/
def Request.view (r : Request φ) (runtime : ProviderRuntime) : PromptSpec :=
  withAttachments
    (if r.isContinuation = true then { r.spec with blocks := [], contexts := [⟨r.pending, "continuation", ""⟩] } else r.spec)
    r.attachments runtime

def contractSources : List String :=
  ["Task JSON", "Bound requirements", "Plan migration contract", "Task status migration contract"]

/-- `json.dumps(value, sort_keys=True)` -/
def dumpsSorted (v : Json φ) : String := String.ofList (ensureAscii v.sorted.spaced)

variable (φ) in
def Host.contractHash (h : Host) (spec : PromptSpec) : String :=
  h.digest (String.ofList (Json.obj (φ := φ) [("blocks", .arr (spec.blocks.map (PromptBlock.asDict φ))),
    ("output", .arr (spec.outputContract.map .str)),
    ("task_contracts", .arr ((spec.contexts.filter fun c => contractSources.contains c.source).map
      (ContextBlock.asDict φ)))]).sorted.spaced)

/-- The keys that are taken over from the metadata of the request. -/
def carriedKeys : List String :=
  ["delta_candidate_bytes", "delta_fallback_reason", "stage_attempt", "compatibility_changes", "settings_changes"]

def carried (metadata : Fields φ) : Fields φ :=
  carriedKeys.filterMap fun key => (metadata.lookup key).map (key, ·)

def instructionsOf (h : Host) (r : Request φ) (runtime : ProviderRuntime) : String :=
  if runtime.instructionsHash ≠ "" then runtime.instructionsHash else h.instructionsHash r.cwd runtime.provider

def Host.compatibility (h : Host) (r : Request φ) (runtime : ProviderRuntime) : Fields φ :=
  [("policy_hash", .str h.policyHash), ("contract_hash", .str (h.contractHash φ r.spec)),
    ("instructions_hash", .str (instructionsOf h r runtime)), ("purpose", .str r.spec.purpose),
    ("model_profile", .str (h.profile r.spec runtime r.modelAdaptation).1), ("provider", .str runtime.provider),
    ("cli_version", .str runtime.cliVersion), ("binary_identity", .str runtime.binaryIdentity),
    ("configured_model", .str runtime.configuredModel), ("resolved_model", .str runtime.resolvedModel),
    ("output_contract_version", .int r.spec.protocolVersion), ("sandbox_mode", .str r.sandboxMode),
    ("effort", .str r.effort), ("settings_fingerprint", .str runtime.settingsFingerprint), ("cwd", .str r.cwd)]

def Host.compatibilityHash (h : Host) (r : Request φ) (runtime : ProviderRuntime) : String :=
  h.digest (dumpsSorted (.obj (h.compatibility r runtime)))

def Host.compatibilityComponents (h : Host) (r : Request φ) (runtime : ProviderRuntime) : List (String × String) :=
  (h.compatibility r runtime).map fun entry => (entry.1, h.digest (dumpsSorted entry.2))

def fallbackReason (metadata : Fields φ) : Json φ := (metadata.lookup "fallback_reason").getD (.str "")

def isSwitch : Json φ → Bool
  | .str reason => reason == "provider-switch"
  | _ => false

/-- The metadata of the prepared prompt. -/
def Host.preparedMetadata (h : Host) (r : Request φ) (runtime : ProviderRuntime) : Fields φ :=
  h.renderMetadata (r.view runtime) runtime r.modelAdaptation ++
    [("adaptation", .str r.modelAdaptation), ("resumed", .bool (r.resumeSessionId ≠ "")), ("sandbox_mode", .str r.sandboxMode),
      ("cwd", .str r.cwd), ("effort", .str r.effort), ("fallback_reason", fallbackReason r.metadata)] ++
    carried r.metadata ++
    [("policy_hash", .str h.policyHash), ("contract_hash", .str (h.contractHash φ r.spec)),
      ("instructions_hash", .str (instructionsOf h r runtime)), ("compatibility_hash", .str (h.compatibilityHash r runtime)),
      ("compatibility_components", .obj (strings (h.compatibilityComponents r runtime))),
      ("full_prompt_bytes",
        .int (utf8Length (h.render φ (withAttachments r.spec r.attachments runtime) runtime r.modelAdaptation))),
      ("prompt_mode", .str (if r.isContinuation = true then "delta"
        else if isSwitch (fallbackReason r.metadata) = true then "handoff" else "full"))]

/-- The request as it is prepared, where its session is kept or there is none. -/
def Host.prepared (h : Host) (r : Request φ) (runtime : ProviderRuntime) : Request φ :=
  { r with
    prompt := h.render φ (r.view runtime) runtime r.modelAdaptation
    metadata := h.preparedMetadata r runtime
    continuation := r.pending }

/-- The session was made for another prompt, or the settings cannot be read. -/
def Host.incompatible (h : Host) (r : Request φ) (runtime : ProviderRuntime) : Bool :=
  r.resumePromptHash ≠ h.compatibilityHash r runtime || runtime.resolutionSource == "unreadable-or-unsupported-config"

/-! What has changed since a session was made. -/

def recordOf (metadata : Fields φ) (key : String) : Fields φ :=
  match metadata.lookup key with
  | some (.obj fields) => fields
  | _ => []

/-- `prior.get(key) != current.get(key)`, where the second holds texts. -/
def changedAt (prior : Fields φ) (current : List (String × String)) (key : String) : Bool :=
  match prior.lookup key, current.lookup key with
  | none, none | some .null, none => false
  | some (.str a), some b => a ≠ b
  | _, _ => true

def changedKeys (prior : Fields φ) (current : List (String × String)) : List String :=
  ((prior.map Prod.fst ++ current.map Prod.fst).eraseDups.filter (changedAt prior current)).mergeSort fun a b => decide (a ≤ b)

def Host.withChanges (h : Host) (r : Request φ) (runtime : ProviderRuntime) : Request φ :=
  let prior := recordOf r.metadata "resume_compatibility_components"
  let settings := recordOf r.metadata "resume_settings_components"
  let compatibility := if prior.isEmpty = true then ["previous_identity_unavailable"]
    else changedKeys prior (h.compatibilityComponents r runtime)
  let changes := if settings.isEmpty = true then [] else changedKeys settings runtime.settingsComponents
  let noted := setField r.metadata "compatibility_changes" (.arr (compatibility.map .str))
  { r with metadata := setField noted "settings_changes" (.arr (changes.map .str)) }

/-- A request that still depends on a native session. -/
def Request.native (r : Request φ) : Bool := r.isContinuation || r.resumeSessionId ≠ ""

omit [FloatText φ] in
theorem fresh_not_native (h : Host) (r : Request φ) (reason progress : String) :
    (h.freshRequest r reason progress).native = false := rfl

/-- `prepare_request`; a request that is given up has no session that could be given up again. -/
def Host.prepareRequest (h : Host) (r : Request φ) (runtime : ProviderRuntime) : Request φ :=
  if r.isContinuation = true ∧ r.resumeSessionId = "" then
    h.prepareRequest (h.freshRequest r "missing-native-session" "") runtime
  else if r.resumeSessionId ≠ "" ∧ h.incompatible r runtime = true then
    h.prepareRequest (h.freshRequest (h.withChanges r runtime) "incompatible-native-session" "") runtime
  else h.prepared r runtime
termination_by r.native.toNat
decreasing_by
  · next hlost =>
      rw [fresh_not_native, show r.native = true by simp [Request.native, hlost.1]]
      decide
  · next hsession =>
      rw [fresh_not_native, show r.native = true by simp [Request.native, hsession.1]]
      decide

end AutoAgents.Prompting
