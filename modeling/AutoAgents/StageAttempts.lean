import AutoAgents.RequirementChains
import AutoAgents.StageWrites

/-! The attempts of a phase, from the workspace the phase is entered with to the one it advances with. An attempt that is not
accepted leaves its writes where they are, and the next one takes them for its own start. -/

namespace AutoAgents.Stage

open Base
open Git (Path Entry Tree Commit ancestors)
open Requirements (Host)

variable {φ : Type}

/-! ### Checks -/

/-- The receipts of the approved gates, with the digests of their files. -/
abbrev Approvals := List (String × Tree)

/-- `verify_approved` -/
def verifyApproved (ws : Workspace) (approved : Approvals) : Except ControlError Unit :=
  approved.forM fun (gate, receipt) => do
    let hashes ← artifactHashes ws receipt.keys
    if (receipt.keys.any fun name => hashes.lookup name != receipt.lookup name) = true then
      .error ⟨"approved_contract", "Worker changed the approved " ++ gate ++ " artifacts", .model⟩
    else pure ()

def tracePath : Path := [".auto-agents", "docs", "requirements_trace.json"]

/-- The newlines of a file opened as text. -/
def universalNewlines : List Char → List Char
  | [] => []
  | '\r' :: '\n' :: rest => '\n' :: universalNewlines rest
  | '\r' :: rest => '\n' :: universalNewlines rest
  | c :: rest => c :: universalNewlines rest

/-- A link stands at the name, or above it. -/
def linked (ws : Workspace) (p : Path) : Bool := (p :: ancestors p).any ws.isSymlink

/-- `trace.read_text() if trace.exists()`, through the links on the way. -/
def readTrace (links : Links) (ws : Workspace) : Except ControlError (Option (List Char)) :=
  if (if linked ws tracePath then links.directory ws.files tracePath else ws.isDirectory tracePath) = true then
    raised "IsADirectoryError"
  else
    match (if linked ws tracePath then links.read ws.files tracePath else (ws.files.lookup tracePath).map (·.data)) with
    | none => .ok none
    | some data =>
        match String.fromUTF8? ⟨data.toArray⟩ with
        | some text => .ok (some (universalNewlines text.toList))
        | none => raised "UnicodeDecodeError"

/-- An exception of another kind, by its message. -/
def caught {α : Type} : Except String α → Except ControlError α
  | .ok a => .ok a
  | .error message => raised message

/-- `json.loads` -/
def loads [FloatText φ] (text : List Char) : Except ControlError (Base.Json φ) :=
  match decode text with
  | some v => .ok v
  | none => raised "JSONDecodeError"

/-- The trace that stands for one that is not there, or is empty. -/
def emptyTrace : Base.Json φ := .obj [("version", .int 1), ("requirements", .arr [])]

/-- `json.loads(before) if before else ..` -/
def earlierTrace [FloatText φ] (before : List Char) : Except ControlError (Base.Json φ) :=
  if before = [] then .ok emptyTrace else loads before

/-- `trace_transition`. The history is not given, so that no requirement counts as delivered. -/
def traceTransition [FloatText φ] (h : Host φ) (before after : List Char) : Except ControlError Unit :=
  if before = after then .ok ()
  else do
    let previous ← earlierTrace before
    let current ← loads after
    let errors ← caught (h.validateRequirementsTracePayload true current)
    let more ← caught (h.validateRequirementContractTransitions [] previous current)
    if errors ++ more ≠ [] then .error ⟨"requirement_contract", "Requirements changed incompatibly", .model⟩ else pure ()

/-! ### Attempts -/

/-- What the attempts of a phase have in common. -/
structure Call where
  phase : Phase
  contract : Contract
  /-- The paths among the inputs of the phase `finalize`. -/
  paths : List Path := []
  approved : Approvals := []
  /-- The candidate that the work item has retained. -/
  retained : Option Candidate := none
  note : String := ""

/-- The scope that `invoke` gives to `stage_writes`. -/
def Call.scope (call : Call) : List Path :=
  match call.phase with
  | .implement => call.contract.scope
  | .acceptance => [".auto-agents", "docs", "acceptance", ""] :: call.contract.checks.flatMap (·.outputs)
  | .finalize => call.paths
  | _ => if call.contract.inputs.variantOnly.isSome = true then call.contract.scope else []

/-- The phase of the call may change the path. -/
def Call.allows (call : Call) (p : Path) : Bool := Stage.allows (allowedPaths call.phase call.scope) p

/-- How the call of the transport ends: with a result, with an error, or with nothing, if the process is lost. -/
inductive Ending
  | returned
  | raised (error : ControlError)
  | lost

/-- One attempt: the workspace its worker leaves, how the call ends, and the documents that the controller then writes of its
own. -/
structure Attempt where
  left : Workspace
  ending : Ending
  documents : List (Path × Entry) := []

section

variable (links : Links) (call : Call)

/-- The checks before the worker starts, and the trace as it then is. -/
def prepare (found : Workspace) : Except ControlError (Option (List Char)) := do
  verifyApproved found call.approved
  readTrace links found

/-- The workspace after an attempt whose result is not kept: a worker that was not started has written nothing. -/
def leaves (found : Workspace) (a : Attempt) : Workspace :=
  match prepare links call found with
  | .ok _ => a.left
  | .error _ => found

/-- `invoke`. A call that was lost has to be reconciled before the next one. -/
def invoke [FloatText φ] (h : Host φ) (found : Workspace) (a : Attempt) : Except ControlError Unit := do
  let previous ← prepare links call found
  match a.ending with
  | .lost => .error ⟨"outcome_unknown", "Reconcile operation", .reconciliation⟩
  | .raised error => .error error
  | .returned => do
      stageWrites (workspaceGuard links found) (workspaceGuard links a.left) call.phase call.scope
      let current ← readTrace links a.left
      (match current with
        | some text => traceTransition h (previous.getD []) text
        | none => .ok ())
      verifyApproved a.left call.approved

/-- The workspace with the documents of the controller. -/
def settled (a : Attempt) : Workspace := a.documents.foldl (fun ws document => ws.put links document.1 document.2) a.left

/-- The candidate that `step` makes of the workspace before it advances. -/
def closing (tool : Tool) (ws : Workspace) : Except ControlError Workspace :=
  if call.phase = .acceptance then pure ws
  else do
    let scope := if call.phase = .plan then [] else call.contract.scope
    let (_, ws) ← candidate tool ws call.contract.source call.contract.outputs scope call.retained call.note
    pure ws

/-- What the next attempt starts from. A result that was accepted may still be refused after the controller has written its
documents and committed a candidate. -/
inductive Goes [FloatText φ] (h : Host φ) (found : Workspace) (a : Attempt) : Workspace → Prop
  | refused {e : ControlError} : invoke links call h found a = .error e → Goes h found a (leaves links call found a)
  | accepted {next : Workspace} : invoke links call h found a = .ok () → next.files = (settled links a).files → Goes h found a next

/-- The attempts of a phase that is entered with a workspace. -/
def attempts [FloatText φ] (h : Host φ) (entry : Workspace) : System Workspace Attempt where
  start := (· = entry)
  step := Goes links call h

end

/-- A phase, from the workspace it is entered with to the one it advances with. -/
structure PhaseRun [FloatText φ] (h : Host φ) (links : Links) (tool : Tool) (call : Call) where
  entry : Workspace
  trace : List (Taken Workspace Attempt)
  /-- The workspace that the last attempt starts from. -/
  found : Workspace
  run : (attempts links call h entry).Run trace found
  last : Attempt
  final : Workspace
  accepted : invoke links call h found last = .ok ()
  advances : closing call tool (settled links last) = .ok final

/-! ### Confinement -/

/-- The guard looks at every file or link of the name. -/
def guarded (p : Path) : Bool := p.all fun part => !caches.contains part

/-- The path may not change: a path of the product that the phase does not own, or a protected one that the guard looks at. -/
def Call.bound (call : Call) (p : Path) : Bool := if productPath p = true then !call.allows p else guarded p

section

variable {links : Links} {call : Call}

theorem walked_guarded {ws : Workspace} {p : Path} (hp : guarded p = true) : walked links ws p = true := by
  have hpart : ∀ part ∈ p, caches.contains part = false := by simpa [guarded] using hp
  rw [walked, Bool.and_eq_true]
  constructor
  · simp only [List.all_eq_true, Bool.not_eq_eq_eq_not, Bool.not_true]
    exact fun part hmem => hpart part (List.mem_of_mem_dropLast hmem)
  · cases hlast : p.getLast? with
    | none => simp
    | some part =>
        have hcache := hpart part (List.mem_of_getLast? hlast)
        simp only [Option.any_some, hcache, Bool.and_false, Bool.not_false]

theorem mark_guarded {ws : Workspace} {p : Path} (hp : guarded p = true) :
    (workspaceGuard links ws).mark p = ws.files.lookup p := if_pos (walked_guarded hp)

theorem candidate_files {tool : Tool} {ws ws' : Workspace} {source : Commit} {outputs scope : List Path}
    {retained : Option Candidate} {note : String} {made : Candidate}
    (h : candidate tool ws source outputs scope retained note = .ok (made, ws')) : ws'.files = ws.files := by
  obtain ⟨_, _, _, _, _, _, rfl, _⟩ := candidate_ok h
  unfold Workspace.record
  split
  · rfl
  · split <;> rfl

theorem closing_files {tool : Tool} {ws ws' : Workspace} (h : closing call tool ws = .ok ws') : ws'.files = ws.files := by
  unfold closing at h
  split at h
  · rw [pure_ok.mp h]
  · simp only [bind_ok, pure_ok] at h
    obtain ⟨⟨made, ws''⟩, hmade, rfl⟩ := h
    exact candidate_files hmade

/-- What an accepted attempt has passed. -/
theorem invoke_ok [FloatText φ] {h : Host φ} {found : Workspace} {a : Attempt} :
    invoke links call h found a = .ok () ↔ ∃ previous current, prepare links call found = .ok previous ∧ a.ending = .returned ∧
      stageWrites (workspaceGuard links found) (workspaceGuard links a.left) call.phase call.scope = .ok () ∧
      readTrace links a.left = .ok current ∧ (∀ text, current = some text → traceTransition h (previous.getD []) text = .ok ()) ∧
      verifyApproved a.left call.approved = .ok () := by
  unfold invoke
  simp only [bind_ok]
  constructor
  · rintro ⟨previous, hprevious, hok⟩
    cases hending : a.ending with
    | lost => simp [hending] at hok
    | raised error => simp [hending] at hok
    | returned =>
        simp only [hending, bind_ok] at hok
        obtain ⟨_, hwrites, current, hcurrent, _, htransition, happroved⟩ := hok
        refine ⟨previous, current, hprevious, rfl, hwrites, hcurrent, ?_, happroved⟩
        rintro text rfl
        exact htransition
  · rintro ⟨previous, current, hprevious, hending, hwrites, hcurrent, htransition, happroved⟩
    refine ⟨previous, hprevious, ?_⟩
    simp only [hending, bind_ok]
    refine ⟨(), hwrites, current, hcurrent, (), ?_, happroved⟩
    cases current with
    | none => rfl
    | some text => exact htransition text rfl

theorem leaves_left {found : Workspace} {a : Attempt} {previous : Option (List Char)}
    (hprevious : prepare links call found = .ok previous) : leaves links call found a = a.left := by rw [leaves, hprevious]

theorem prepare_ok {found : Workspace} {previous : Option (List Char)} (hprevious : prepare links call found = .ok previous) :
    readTrace links found = .ok previous := by
  simp only [prepare, bind_ok] at hprevious
  obtain ⟨_, _, hread⟩ := hprevious
  exact hread

/-- A path that is bound and that the guard looks at is as the last attempt has found it. -/
theorem accepted_bound [FloatText φ] {h : Host φ} {found : Workspace} {a : Attempt} (hok : invoke links call h found a = .ok ())
    {p : Path} (hbound : call.bound p = true) (hguarded : guarded p = true) : found.files.lookup p = a.left.files.lookup p := by
  obtain ⟨_, _, _, _, hwrites, _⟩ := invoke_ok.mp hok
  by_contra hne
  rw [← mark_guarded hguarded, ← mark_guarded hguarded] at hne
  obtain ⟨hproduct, hallowed⟩ := (stageWrites_ok.mp hwrites).2 p (mem_changed.mpr (.inl ⟨mem_names hne, hne⟩))
  simp [Call.bound, Call.allows, hproduct, hallowed] at hbound

end

namespace PhaseRun

variable [FloatText φ] {h : Host φ} {links : Links} {tool : Tool} {call : Call}

/-- What has changed since the phase was entered is of the product and belongs to the phase; what is protected has not. -/
def Confined (r : PhaseRun h links tool call) : Prop :=
  (∀ p, productPath p = true → r.entry.files.lookup p ≠ r.final.files.lookup p → call.allows p = true) ∧
    ∀ p, productPath p = false → guarded p = true → r.entry.files.lookup p = r.final.files.lookup p

/-- The bound paths as the phase leaves them: the attempts before the last one have left nothing behind, and what is neither
compared nor written by a worker is as it was. -/
structure Restored (r : PhaseRun h links tool call) : Prop where
  earlier : ∀ p, call.bound p = true → guarded p = true →
    (settled links r.last).files.lookup p = r.last.left.files.lookup p → r.entry.files.lookup p = r.found.files.lookup p
  hidden : ∀ p, call.bound p = true → guarded p = false → r.entry.files.lookup p = (settled links r.last).files.lookup p
  documents : ∀ p, call.bound p = true →
    (settled links r.last).files.lookup p ≠ r.last.left.files.lookup p → r.entry.files.lookup p = (settled links r.last).files.lookup p

theorem confined_bound (r : PhaseRun h links tool call) :
    r.Confined ↔ ∀ p, call.bound p = true → r.entry.files.lookup p = (settled links r.last).files.lookup p := by
  rw [Confined, closing_files r.advances]
  constructor
  · rintro ⟨hscope, hprotected⟩ p hbound
    by_cases hproduct : productPath p = true
    · by_contra hne
      simp [Call.bound, hproduct, hscope p hproduct hne] at hbound
    · rw [Call.bound, if_neg hproduct] at hbound
      exact hprotected p (by simpa using hproduct) hbound
  · intro hsame
    constructor
    · intro p hproduct hne
      by_contra hnot
      exact hne (hsame p (by simp [Call.bound, hproduct, hnot]))
    · intro p hproduct hguarded
      exact hsame p (by simp [Call.bound, hproduct, hguarded])

theorem confined_iff (r : PhaseRun h links tool call) : r.Confined ↔ r.Restored := by
  rw [confined_bound]
  have hlast {p : Path} (hbound : call.bound p = true) (hguarded : guarded p = true) :
      r.found.files.lookup p = r.last.left.files.lookup p := accepted_bound r.accepted hbound hguarded
  constructor
  · intro hsame
    refine ⟨fun p hbound hguarded hsettled => ?_, fun p hbound _ => hsame p hbound, fun p hbound _ => hsame p hbound⟩
    rw [hsame p hbound, hsettled, hlast hbound hguarded]
  · intro hrestored p hbound
    by_cases hsettled : (settled links r.last).files.lookup p = r.last.left.files.lookup p
    · by_cases hguarded : guarded p = true
      · rw [hrestored.earlier p hbound hguarded hsettled, hlast hbound hguarded, hsettled]
      · exact hrestored.hidden p hbound (by simpa using hguarded)
    · exact hrestored.documents p hbound hsettled

end PhaseRun

/-! ### Attempts that leave nothing behind -/

/-! ### A write that is kept -/

/-- A workspace without links. -/
def noLinks : Links where
  read _ _ := none
  directory _ _ := false
  through files _ _ := files

def emptyWorkspace : Workspace where
  head := .initial ∅ "source"
  index := ∅
  files := ∅
  ignored _ := false

theorem no_scope_relative : ([] : List Path).all relative = true := rfl

def readmeCall : Call where
  phase := .readme
  contract := {
    workflowId := "w", workId := "w", mode := .run, goal := "Sort the answers", source := .initial ∅ "source",
    goal_given := by decide, scope_relative := no_scope_relative }

/-- The worker writes a source file, and then the provider fails. -/
def strayAttempt : Attempt where
  left := { emptyWorkspace with files := AList.singleton ["src", "app.py"] ⟨.regular, [120]⟩ }
  ending := .raised ⟨"provider_unavailable", "The provider is unavailable", .provider⟩

/-- The worker writes what the phase is for. -/
def readmeAttempt : Attempt where
  left := { emptyWorkspace with files := strayAttempt.left.files.insert ["README.md"] ⟨.regular, [120]⟩ }
  ending := .returned

theorem earlier_write_kept : ¬ ∀ (links : Links) (tool : Tool) (call : Call) (r : PhaseRun Requirements.plainHost links tool call),
    r.Confined := by
  intro hall
  have hstray : Goes noLinks readmeCall Requirements.plainHost emptyWorkspace strayAttempt
      (leaves noLinks readmeCall emptyWorkspace strayAttempt) :=
    .refused (e := ⟨"provider_unavailable", "The provider is unavailable", .provider⟩) (by decide +kernel)
  have hcloses : (closing readmeCall plainTool (settled noLinks readmeAttempt)).isOk = true := by decide +kernel
  obtain ⟨final, hfinal⟩ := exists_of_isOk hcloses
  have hconfined := hall noLinks plainTool readmeCall
    { entry := emptyWorkspace
      trace := _
      found := _
      run := .step (.start rfl) hstray
      last := readmeAttempt
      final
      accepted := by decide +kernel
      advances := hfinal }
  have hsame := (PhaseRun.confined_bound _).mp hconfined ["src", "app.py"] (by decide +kernel)
  have hchanged : emptyWorkspace.files.lookup ["src", "app.py"] ≠
      (settled noLinks readmeAttempt).files.lookup ["src", "app.py"] := by decide +kernel
  exact hchanged hsame

end AutoAgents.Stage
