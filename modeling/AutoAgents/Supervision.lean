import AutoAgents.OperatorSecrets

/-! The supervisor of one provider attempt: the lease of the attempt, the table of its tools and the
counter of equal tool completions. The report of the attempt is left out, as no decision reads it. -/

namespace AutoAgents.Supervision

open Base
open Operator (isSpace strip)

variable {φ : Type}

/-! ### Events and requests -/

structure AgentProgressEvent where
  kind : String
  sessionId : String := ""
  toolId : String := ""
  fingerprint : String := ""
  detail : String := ""
  semantic : Bool := false
  deriving DecidableEq, Repr

/-- The limits; validation refuses a smaller `loop_repeat_limit`. -/
structure SmartTimeoutConfig where
  providerIdleSeconds : Int := 1800
  toolIdleSeconds : Int := 900
  semanticStallSeconds : Int := 3600
  loopRepeatLimit : Nat := 3
  stageProgressLeaseSeconds : List (String × Int) := []
  repeats : 2 ≤ loopRepeatLimit := by decide

/-- `progress_evidence_path` is given by its stem. -/
structure AgentRequest where
  stage : String
  purpose : String := ""
  progressLeaseSeconds : Int := 0
  progressEvidencePath : Option String := none
  progressExpectedChecks : List String := []
  resumeSessionId : String := ""

/-- What does not change during the attempt. The decoder is given by whether it requires the protocol;
`digest` is the SHA-256 of a text, and `lower` is `str.lower`. -/
structure Supervisor where
  config : SmartTimeoutConfig
  request : AgentRequest
  decoder : Option Bool
  digest : String → String
  lower : String → String

/-- The contents of the workspace and of the output file, by their fingerprints. -/
structure Files where
  workspace : String
  output : String
  deriving DecidableEq, Repr

/-- The processes of the group, with their start, their times and their state. -/
abbrev Snapshot := List (Nat × Nat × Nat × String)

structure State where
  startedAt : ℚ
  lastProviderActivity : ℚ
  lastToolActivity : ℚ
  lastSemanticProgress : ℚ
  lastWorkspacePoll : ℚ
  workspaceFingerprint : String
  outputFingerprint : String
  sessionId : String
  activeTools : List String
  toolContext : List (String × String × String)
  protocolSeen : Bool
  repeatCount : Nat
  lastLoopFingerprint : String
  seenSemanticFingerprints : List String
  seenVerifiedCheckpoints : List String
  forcedReason : String
  processSnapshot : Snapshot
  deriving Repr

/-! ### The checkpoints of a check -/

/-- `text.rsplit(":", 2)`: what stands before the last but one colon, and the rest. -/
def rsplitColons (text : List Char) : Option (List Char × List Char) :=
  let last := text.reverse.takeWhile (· ≠ ':')
  match text.reverse.dropWhile (· ≠ ':') with
  | [] => none
  | _ :: rest =>
    let middle := rest.takeWhile (· ≠ ':')
    match rest.dropWhile (· ≠ ':') with
    | [] => none
    | _ :: first => some (first.reverse, middle.reverse ++ ':' :: last.reverse)

/-- The identity of the check, and the phase it has reached. -/
def checkpointParts (checkpoint : String) : Option (String × String) :=
  if "start:".toList.isPrefixOf checkpoint.toList = true then
    some (String.ofList (checkpoint.toList.drop 6), "start")
  else
    (rsplitColons checkpoint.toList).map fun parts => (String.ofList parts.1, String.ofList parts.2)

def covers (target identity : String) : Bool :=
  identity == target || (target ++ "::").toList.isPrefixOf identity.toList ||
    (target ++ "[").toList.isPrefixOf identity.toList

/-- What a loop over a value of the payload runs through, where all of it is text. -/
def iterated : Json φ → Option (List String)
  | .arr items => items.mapM fun item => match item with
    | .str text => some text
    | _ => none
  | .obj fields => some (fields.map Prod.fst)
  | .str text => some (text.toList.map String.singleton)
  | _ => none

namespace Supervisor

def trustedProgress (v : Supervisor) : Bool :=
  v.request.purpose == "self_repair" ||
    (v.request.progressEvidencePath.isSome && !v.request.progressExpectedChecks.isEmpty)

/-- The expected checks that a checkpoint counts for, each with the phase. -/
def observedTargets (v : Supervisor) (checkpoint : String) : List String :=
  match checkpointParts checkpoint with
  | none => []
  | some (identity, phase) =>
    (v.request.progressExpectedChecks.filter fun target => covers target identity).map fun target =>
      target ++ ":" ++ phase

/-- `payload` is `none` where the evidence file cannot be read or is no JSON. -/
def trustedCheckpoints (v : Supervisor) (payload : Option (Json φ)) : List String :=
  match v.request.progressEvidencePath, payload with
  | some stem, some (.obj fields) =>
    match fields.lookup "context" with
    | some (.str context) =>
      if context = stem then
        match iterated ((fields.lookup "checkpoints").getD (.arr [])) with
        | some checkpoints => checkpoints.flatMap v.observedTargets
        | none => []
      else []
    | _ => []
  | _, _ => []

/-- A probe of a provider may wait for less than a minute. -/
def effectiveProgressLeaseSeconds (v : Supervisor) : Int :=
  let minimum := if v.request.stage = "provider_probe" then 1 else 60
  if 0 < v.request.progressLeaseSeconds then max minimum v.request.progressLeaseSeconds
  else max minimum
    ((v.config.stageProgressLeaseSeconds.lookup v.request.stage).getD v.config.semanticStallSeconds)

def normalizeDetail (v : Supervisor) (detail : String) : String :=
  let text := v.lower (String.ofList (strip detail.toList))
  let words := (text.toList.splitOnP isSpace).filter fun word => !word.isEmpty
  String.ofList ((" ".toList.intercalate words).take 1000)

def toolKey (v : Supervisor) (e : AgentProgressEvent) : String :=
  if e.toolId ≠ "" then e.toolId
  else if e.fingerprint ≠ "" then e.fingerprint
  else if v.normalizeDetail e.detail ≠ "" then v.normalizeDetail e.detail
  else "unknown-tool"

/-- `json.dumps([context, fingerprint], ensure_ascii=False)` -/
def contextText (context : String × String) (fingerprint : String) : String :=
  String.ofList ("[[".toList ++ encodeString context.1.toList ++ ", ".toList ++ encodeString context.2.toList ++
    "], ".toList ++ encodeString fingerprint.toList ++ "]".toList)

def loopFingerprint (v : Supervisor) (workspace : String) (e : AgentProgressEvent) : String :=
  v.digest ("\x00".intercalate [v.request.stage, workspace, e.fingerprint, v.normalizeDetail e.detail])

def semanticFingerprint (v : Supervisor) (files : Files) (e : AgentProgressEvent) : String :=
  v.digest ("\x00".intercalate
    [e.kind, e.fingerprint, v.normalizeDetail e.detail, files.workspace, files.output])

end Supervisor

/-! ### The supervisor -/

def workspacePollSeconds : ℚ := 15

def protocolStartupSeconds : Int := 120

namespace State

/-- What was sampled last. -/
def sampled (s : State) : Files := ⟨s.workspaceFingerprint, s.outputFingerprint⟩

/-- `__init__` -/
def start (v : Supervisor) (now : ℚ) (files : Files) (payload : Option (Json φ)) : State where
  startedAt := now
  lastProviderActivity := now
  lastToolActivity := now
  lastSemanticProgress := now
  lastWorkspacePoll := 0
  workspaceFingerprint := files.workspace
  outputFingerprint := files.output
  sessionId := v.request.resumeSessionId
  activeTools := []
  toolContext := []
  protocolSeen := v.decoder != some true
  repeatCount := 0
  lastLoopFingerprint := ""
  seenSemanticFingerprints := []
  seenVerifiedCheckpoints := if v.trustedProgress then v.trustedCheckpoints payload else []
  forcedReason := ""
  processSnapshot := []

def sampleWorkspace (v : Supervisor) (files : Files) (now : ℚ) (s : State) : State :=
  if files ≠ s.sampled then
    let s := { s with workspaceFingerprint := files.workspace, outputFingerprint := files.output }
    if v.trustedProgress then s
    else { s with lastSemanticProgress := now, repeatCount := 0, lastLoopFingerprint := "" }
  else s

/-- Counts a completion against the last one. -/
def countLoop (fingerprint : String) (s : State) : State :=
  if fingerprint = s.lastLoopFingerprint then { s with repeatCount := s.repeatCount + 1 }
  else { s with lastLoopFingerprint := fingerprint, repeatCount := 1 }

/-- A fast cycle may precede the periodic probe, so the workspace is sampled before it is stopped. -/
def confirmLoop (v : Supervisor) (files : Files) (now : ℚ) (s : State) : State :=
  if v.config.loopRepeatLimit ≤ s.repeatCount then
    let s := s.sampleWorkspace v files now
    if v.config.loopRepeatLimit ≤ s.repeatCount then { s with forcedReason := "loop_detected" } else s
  else s

/-- Under trusted progress the fingerprint covers the workspace after an edit alone. -/
def observeLoop (v : Supervisor) (files : Files) (now : ℚ) (s : State) (e : AgentProgressEvent) : State :=
  if v.trustedProgress then
    if e.detail = "file_change" then
      let s := s.sampleWorkspace v files now
      (s.countLoop (v.loopFingerprint s.workspaceFingerprint e)).confirmLoop v files now
    else (s.countLoop (v.loopFingerprint "" e)).confirmLoop v files now
  else (s.countLoop (v.loopFingerprint s.workspaceFingerprint e)).confirmLoop v files now

def context (v : Supervisor) (s : State) (e : AgentProgressEvent) : Option (String × String) :=
  s.toolContext.lookup (v.toolKey e)

/-- A completion stands for its inputs together with its result. -/
def effective (v : Supervisor) (s : State) (e : AgentProgressEvent) : AgentProgressEvent :=
  if e.kind = "tool_completed" then
    match s.context v e with
    | some context => { e with fingerprint := v.digest (Supervisor.contextText context e.fingerprint) }
    | none => e
  else e

def observeTool (v : Supervisor) (files : Files) (now : ℚ) (s : State) (e : AgentProgressEvent) : State :=
  if e.kind = "tool_started" then
    { s with
      activeTools := if v.toolKey e ∈ s.activeTools then s.activeTools else s.activeTools ++ [v.toolKey e]
      toolContext := (v.toolKey e, e.fingerprint, e.detail) :: s.toolContext.filter (·.1 ≠ v.toolKey e)
      lastToolActivity := now }
  else if e.kind = "tool_progress" then
    if v.toolKey e ∈ s.activeTools then { s with lastToolActivity := now } else s
  else if e.kind = "tool_completed" then
    let d := s.effective v e
    let s := { s with lastToolActivity := now, toolContext := s.toolContext.filter (·.1 ≠ v.toolKey e) }
    let s := s.observeLoop v files now d
    -- the key is taken of the changed event
    { s with activeTools := s.activeTools.filter (· ≠ v.toolKey d) }
  else if e.kind = "error" then { s with forcedReason := "provider_error" }
  else s

def observeSemantic (v : Supervisor) (now : ℚ) (s : State) (e : AgentProgressEvent) : State :=
  if e.semantic = true ∧ v.trustedProgress = false ∧
      v.semanticFingerprint s.sampled e ∉ s.seenSemanticFingerprints then
    { s with
      seenSemanticFingerprints := v.semanticFingerprint s.sampled e :: s.seenSemanticFingerprints
      lastSemanticProgress := now }
  else s

/-- The body of `observe_events` for one event, with one reading of the clock. -/
def observe (v : Supervisor) (files : Files) (now : ℚ) (s : State) (e : AgentProgressEvent) : State :=
  let d := s.effective v e
  let s := { s with
    protocolSeen := true
    lastProviderActivity := now
    sessionId := if e.sessionId = "" then s.sessionId else e.sessionId }
  (s.observeTool v files now e).observeSemantic v now d

def observeEvents (v : Supervisor) (files : Files) (s : State) (events : List (ℚ × AgentProgressEvent)) : State :=
  events.foldl (fun s event => s.observe v files event.1 event.2) s

def sampleProcessGroup (now : ℚ) (snapshot : Snapshot) (s : State) : State :=
  if snapshot = [] then s
  else
    let s := if snapshot ≠ s.processSnapshot then
        { s with
          lastProviderActivity := now
          lastToolActivity := if s.activeTools ≠ [] then now else s.lastToolActivity }
      else s
    { s with processSnapshot := snapshot }

def verifyCheckpoints (now : ℚ) (checkpoints : List String) (s : State) : State :=
  if checkpoints.filter (· ∉ s.seenVerifiedCheckpoints) ≠ [] then
    { s with
      seenVerifiedCheckpoints := checkpoints ++ s.seenVerifiedCheckpoints
      lastSemanticProgress := now }
  else s

def probeWorkspace (v : Supervisor) (files : Files) (now : ℚ) (s : State) : State :=
  if workspacePollSeconds ≤ now - s.lastWorkspacePoll then
    ({ s with lastWorkspacePoll := now } : State).sampleWorkspace v files now
  else s

/-- What a poll answers. -/
def reason (v : Supervisor) (now : ℚ) (s : State) : Option String :=
  if s.forcedReason ≠ "" then some s.forcedReason
  else if s.protocolSeen = false ∧
      ((min protocolStartupSeconds v.config.providerIdleSeconds : Int) : ℚ) ≤ now - s.startedAt then
    some "protocol_error"
  else if (v.config.providerIdleSeconds : ℚ) ≤ now - s.lastProviderActivity then some "provider_idle"
  else if s.activeTools ≠ [] ∧ (v.config.toolIdleSeconds : ℚ) ≤ now - s.lastToolActivity then some "tool_stalled"
  else if (s.activeTools = [] ∨ v.trustedProgress = true) ∧
      (v.effectiveProgressLeaseSeconds : ℚ) ≤ now - s.lastSemanticProgress then
    some "semantic_stall"
  else none

/-- A poll behind the events of its decoder; `failed` says that the decoder raised. -/
def afterDecoder (v : Supervisor) (files : Files) (payload : Option (Json φ)) (now : ℚ) (failed : Bool)
    (snapshot : Snapshot) (s : State) : State :=
  let s := if v.decoder.isSome && failed then { s with forcedReason := "protocol_error" } else s
  let s := s.sampleProcessGroup now snapshot
  let s := if v.trustedProgress then s.verifyCheckpoints now (v.trustedCheckpoints payload) else s
  s.probeWorkspace v files now

def poll (v : Supervisor) (files : Files) (payload : Option (Json φ)) (now : ℚ)
    (decoded : List (ℚ × AgentProgressEvent)) (failed : Bool) (snapshot : Snapshot) (s : State) : State × Option String :=
  let s := if v.decoder.isSome then s.observeEvents v files decoded else s
  let s := s.afterDecoder v files payload now failed snapshot
  (s, s.reason v now)

/-- `observe_io`; the decoder raised where `fed` is `none`. -/
def observeIo (v : Supervisor) (files : Files) (now : ℚ) (chunk : String)
    (fed : Option (List (ℚ × AgentProgressEvent))) (s : State) : State :=
  let s := if chunk ≠ "" then { s with lastProviderActivity := now } else s
  if v.decoder.isSome then
    match fed with
    | some events => s.observeEvents v files events
    | none => { s with forcedReason := "protocol_error" }
  else s

end State

end AutoAgents.Supervision
