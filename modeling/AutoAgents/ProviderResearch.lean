import AutoAgents.ProofFiles
import AutoAgents.ProviderDocuments
import AutoAgents.StageRequirements

/-! Provider research in a workspace. The worker may write the documents of the phase, and the controller reads the trace and the lock
from where they are kept and checks them. The lock is kept with the state of the controller, which no phase may write. -/

namespace AutoAgents.Provider

open Base
open Git (Path Bytes ancestors)
open Stage (guarded noLinks universalNewlines)
open Requirements (Host Fields errorIf)
open Operator (stripText)

variable {φ : Type}

/-! ### Files -/

def lockPath : Path := [".auto-agents", "state", "provider_references.lock.json"]
def markerPath : Path := [".auto-agents", "state", "workspace-control.json"]
def storePath : Path := [".auto-agents", "state", "business.sqlite3"]
def stateTracePath : Path := [".auto-agents", "state", "requirements_trace.json"]

/-- The files that the validation starts from. -/
def sourcePaths : List Path := [lockPath, markerPath, storePath, stateTracePath, Stage.tracePath]

/-- What opening a file gives, if something is there. -/
def content (links : Links) (ws : Workspace) (p : Path) : Except String (Option Bytes) :=
  if Stage.linked ws p = true then
    if links.directory ws.files p = true then .error "IsADirectoryError" else .ok (links.read ws.files p)
  else
    match ws.files.lookup p with
    | some entry => .ok (some entry.data)
    | none => if ws.isDirectory p = true then .error "IsADirectoryError" else .ok none

section

variable (links : Links) (controlled : Bytes → Except String Bool)

def isFile (ws : Workspace) (p : Path) : Bool :=
  match content links ws p with
  | .ok (some _) => true
  | _ => false

def readText (ws : Workspace) (p : Path) : Except String (Option (List Char)) := do
  match (← content links ws p) with
  | none => return none
  | some data =>
      match String.fromUTF8? ⟨data.toArray⟩ with
      | some text => return some (universalNewlines text.toList)
      | none => .error "UnicodeDecodeError"

/-- `read_json` -/
def readJson [FloatText φ] (ws : Workspace) (p : Path) : Except String (Base.Json φ) := do
  match (← readText links ws p) with
  | none => return .null
  | some text =>
      match decode text with
      | some v => return v
      | none => .error "JSONDecodeError"

/-- `requirements_trace_path`; `controlled` is what the file of a store says. -/
def requirementsTracePath (ws : Workspace) : Except String Path :=
  if isFile links ws markerPath = true then return Stage.tracePath
  else do
    match (← content links ws storePath) with
    | none => return stateTracePath
    | some data => do
        let current ← controlled data
        return if current = true then Stage.tracePath else stateTracePath

/-- `normalize_requirements_trace_payload` -/
def normalizeTrace (trace : Fields φ) : Fields φ :=
  match trace.lookup "requirements" with
  | some (.arr items) => Base.setField trace "requirements" (.arr (items.map fun v =>
      match v with
      | .obj item => .obj (Requirements.normalizeRequirementRecord item)
      | v => v))
  | _ => trace

/-- `load_requirements_trace` -/
def loadRequirementsTrace [FloatText φ] (ws : Workspace) : Except String (Fields φ) := do
  let p ← requirementsTracePath links controlled ws
  match (← readJson links ws p) with
  | .obj trace => return normalizeTrace trace
  | _ => return [("version", .int 1), ("requirements", .arr [])]

/-- `load_provider_references_lock` -/
def loadProviderReferencesLock [FloatText φ] (ws : Workspace) : Except String (Lock φ) := do
  match (← readJson links ws lockPath) with
  | .obj lock => return lock
  | _ => return [("version", .int 1), ("references", .obj [])]

/-- The document of a reference, which has to be a file of the product that no link leads to. -/
def readReference (ws : Workspace) (reference : String) : Except String (Option (List Char)) :=
  let name := Proofs.slashParts reference
  match ws.safeFile name with
  | .error e => .error e.message
  | .ok () => readText links ws (parts name)

end

/-- `validate_provider_documents` in a workspace. -/
def validateWorkspace [FloatText φ] (s : Surroundings φ) (links : Links) (controlled : Bytes → Except String Bool)
    (text : String → Except String String) (context : Context φ) (history : History φ) (proposal : Proposal) (ws : Workspace) :
    Except Refusal (Lock φ × History φ) := do
  let trace ← caught (loadRequirementsTrace links controlled ws)
  let lock ← caught (loadProviderReferencesLock links ws)
  validateProviderDocuments s (readReference links ws) text context history trace lock proposal

/-- The phase can be completed: some writes that are accepted leave a workspace that some reply is valid for. -/
def Completes [FloatText φ] (s : Surroundings φ) (links : Links) (controlled : Bytes → Except String Bool)
    (text : String → Except String String) (context : Context φ) (history : History φ) (ws : Workspace) : Prop :=
  ∃ after proposal result,
    Stage.stageWrites (Stage.workspaceGuard links ws) (Stage.workspaceGuard links after) .providerResearch [] = .ok () ∧
      validateWorkspace s links controlled text context history proposal after = .ok result

/-- No link stands on the way to what the validation starts from. -/
def Owned (ws : Workspace) : Prop := ∀ p ∈ sourcePaths, Stage.linked ws p = false

/-- `provider_reference_status(lock, reference) not in {"verified", "assumption_approved"}` -/
def unresolved (h : Host φ) (lock : Lock φ) (reference : String) : Prop :=
  ∀ entry, lockEntry h lock reference = some entry → h.text entry "status" "missing" ∉ usableStatuses

/-! ### What the phase keeps -/

section

variable {links : Links} {ws after : Workspace}

/-- The phase may not write the path, and the guard looks at it. -/
def kept (p : Path) : Bool := guarded p && !(productPath p && Stage.allows (Stage.allowedPaths .providerResearch []) p)

theorem kept_sources : ∀ p ∈ sourcePaths, (p :: ancestors p).all kept = true := by decide +kernel

theorem isFile_owned {p : Path} (hlinked : Stage.linked ws p = false) : isFile links ws p = (ws.files.lookup p).isSome := by
  simp only [isFile, content, hlinked, Bool.false_eq_true, if_false]
  cases ws.files.lookup p with
  | some entry => rfl
  | none => by_cases hdirectory : ws.isDirectory p = true <;> simp [hdirectory]

theorem requirementsTracePath_mem {controlled : Bytes → Except String Bool} {p : Path}
    (hpath : requirementsTracePath links controlled ws = .ok p) : p ∈ sourcePaths := by
  unfold requirementsTracePath at hpath
  split at hpath
  · rw [← Except.ok.inj hpath]
    decide
  · simp only [bind_ok] at hpath
    obtain ⟨data, _, hpath⟩ := hpath
    cases data with
    | none =>
        rw [← Except.ok.inj hpath]
        decide
    | some data =>
        simp only [bind_ok, pure_ok] at hpath
        obtain ⟨current, _, rfl⟩ := hpath
        split <;> decide

variable (hwrites : Stage.stageWrites (Stage.workspaceGuard links ws) (Stage.workspaceGuard links after) .providerResearch [] = .ok ())

include hwrites

theorem lookup_kept {p : Path} (hp : kept p = true) : after.files.lookup p = ws.files.lookup p := by
  simp only [kept, Bool.and_eq_true, Bool.not_eq_eq_eq_not, Bool.not_true] at hp
  by_contra hne
  rw [← @Stage.mark_guarded links _ _ hp.1, ← @Stage.mark_guarded links _ _ hp.1] at hne
  have hchanged := Stage.mem_changed.mpr (.inl ⟨Stage.mem_names (Ne.symm hne), Ne.symm hne⟩)
  obtain ⟨hproduct, hallowed⟩ := (Stage.stageWrites_ok.mp hwrites).2 p hchanged
  simp [hproduct, hallowed] at hp

theorem linked_kept {p : Path} (hp : p ∈ sourcePaths) : Stage.linked after p = Stage.linked ws p := by
  have hkept := List.all_eq_true.mp (kept_sources p hp)
  have hsame : ∀ q ∈ p :: ancestors p, after.isSymlink q = ws.isSymlink q := by
    intro q hq
    simp only [Workspace.isSymlink, lookup_kept hwrites (hkept q hq)]
  apply Bool.eq_iff_iff.mpr
  rw [Stage.linked, Stage.linked, List.any_eq_true, List.any_eq_true]
  exact exists_congr fun q => and_congr_right fun hq => by rw [hsame q hq]

/-- What a source gives before and after the writes of the phase is the same, where it gives something. A directory may come to stand in
the place of a file that was not there. -/
theorem content_kept (howned : Owned ws) {p : Path} (hp : p ∈ sourcePaths) {found found' : Option Bytes}
    (hbefore : content links ws p = .ok found) (hafter : content links after p = .ok found') : found' = found := by
  have hself : kept p = true := List.all_eq_true.mp (kept_sources p hp) p List.mem_cons_self
  have hlinked : Stage.linked ws p = false := howned p hp
  simp only [content, linked_kept hwrites hp, hlinked, lookup_kept hwrites hself, Bool.false_eq_true, if_false] at hbefore hafter
  cases hlookup : ws.files.lookup p with
  | some entry =>
      simp only [hlookup, Except.ok.injEq] at hbefore hafter
      rw [← hbefore, ← hafter]
  | none =>
      simp only [hlookup] at hbefore hafter
      split at hbefore
      · cases hbefore
      · split at hafter
        · cases hafter
        · rw [← Except.ok.inj hbefore, ← Except.ok.inj hafter]

theorem readText_kept (howned : Owned ws) {p : Path} (hp : p ∈ sourcePaths) {found found' : Option (List Char)}
    (hbefore : readText links ws p = .ok found) (hafter : readText links after p = .ok found') : found' = found := by
  simp only [readText, bind_ok] at hbefore hafter
  obtain ⟨data, hdata, hbefore⟩ := hbefore
  obtain ⟨data', hdata', hafter⟩ := hafter
  obtain rfl := content_kept hwrites howned hp hdata hdata'
  exact Except.ok.inj (hafter.symm.trans hbefore)

theorem readJson_kept [FloatText φ] (howned : Owned ws) {p : Path} (hp : p ∈ sourcePaths) {v v' : Base.Json φ}
    (hbefore : readJson links ws p = .ok v) (hafter : readJson links after p = .ok v') : v' = v := by
  simp only [readJson, bind_ok] at hbefore hafter
  obtain ⟨text, htext, hbefore⟩ := hbefore
  obtain ⟨text', htext', hafter⟩ := hafter
  obtain rfl := readText_kept hwrites howned hp htext htext'
  exact Except.ok.inj (hafter.symm.trans hbefore)

theorem isFile_kept (howned : Owned ws) {p : Path} (hp : p ∈ sourcePaths) : isFile links after p = isFile links ws p := by
  have hself : kept p = true := List.all_eq_true.mp (kept_sources p hp) p List.mem_cons_self
  rw [isFile_owned (howned p hp), isFile_owned ((linked_kept hwrites hp).trans (howned p hp)), lookup_kept hwrites hself]

theorem requirementsTracePath_kept {controlled : Bytes → Except String Bool} (howned : Owned ws) {p p' : Path}
    (hbefore : requirementsTracePath links controlled ws = .ok p) (hafter : requirementsTracePath links controlled after = .ok p') :
    p' = p := by
  simp only [requirementsTracePath, isFile_kept hwrites howned (by decide : markerPath ∈ sourcePaths)] at hbefore hafter
  by_cases hmarker : isFile links ws markerPath = true
  · rw [if_pos hmarker] at hbefore hafter
    rw [← Except.ok.inj hbefore, ← Except.ok.inj hafter]
  · rw [if_neg hmarker, bind_ok] at hbefore hafter
    obtain ⟨data, hdata, hbefore⟩ := hbefore
    obtain ⟨data', hdata', hafter⟩ := hafter
    obtain rfl := content_kept hwrites howned (by decide) hdata hdata'
    exact Except.ok.inj (hafter.symm.trans hbefore)

theorem trace_kept [FloatText φ] {controlled : Bytes → Except String Bool} (howned : Owned ws) {trace trace' : Fields φ}
    (hbefore : loadRequirementsTrace links controlled ws = .ok trace) (hafter : loadRequirementsTrace links controlled after = .ok trace') :
    trace' = trace := by
  simp only [loadRequirementsTrace, bind_ok] at hbefore hafter
  obtain ⟨p, hp, v, hv, hbefore⟩ := hbefore
  obtain ⟨p', hp', v', hv', hafter⟩ := hafter
  obtain rfl := requirementsTracePath_kept hwrites howned hp hp'
  obtain rfl := readJson_kept hwrites howned (requirementsTracePath_mem hp) hv hv'
  exact Except.ok.inj (hafter.symm.trans hbefore)

theorem lock_kept [FloatText φ] (howned : Owned ws) {lock lock' : Lock φ} (hbefore : loadProviderReferencesLock links ws = .ok lock)
    (hafter : loadProviderReferencesLock links after = .ok lock') : lock' = lock := by
  simp only [loadProviderReferencesLock, bind_ok] at hbefore hafter
  obtain ⟨v, hv, hbefore⟩ := hbefore
  obtain ⟨v', hv', hafter⟩ := hafter
  obtain rfl := readJson_kept hwrites howned (by decide) hv hv'
  exact Except.ok.inj (hafter.symm.trans hbefore)

end

/-! ### What the validation refuses -/

section

variable [FloatText φ] {s : Surroundings φ} {lock : Lock φ} {trace : Fields φ} {reference : String}

theorem effectiveStatus_unresolved (hunresolved : unresolved s.toHost lock reference) {status : String}
    (hstatus : effectiveStatus s lock trace reference = .ok status) : status ∉ usableStatuses := by
  unfold effectiveStatus at hstatus
  cases hentry : lockEntry s.toHost lock reference with
  | none =>
      simp only [hentry, Except.ok.injEq] at hstatus
      rw [← hstatus]
      decide
  | some entry =>
      have hnot : entryStatus s entry ∉ usableStatuses := by
        unfold entryStatus
        split
        · decide
        · exact hunresolved entry hentry
      simp only [hentry] at hstatus
      split at hstatus
      · rwa [← Except.ok.inj hstatus]
      · simp only [bind_ok, pure_ok] at hstatus
        obtain ⟨hash, _, rfl⟩ := hstatus
        split
        · exact hnot
        · decide

omit [FloatText φ] in
/-- A status that is one of the usable ones as it stands is one of them without the blanks around it. -/
theorem usable_status {entry : Fields φ} (husable : inTexts usableStatuses (get entry "status") = .ok true) :
    s.text entry "status" "missing" ∈ usableStatuses := by
  unfold get Requirements.field at husable
  cases hstatus : entry.lookup "status" with
  | none => simp [hstatus, inTexts] at husable
  | some v =>
      rw [hstatus, Option.getD_some] at husable
      cases v with
      | str name =>
          have hname : name = "verified" ∨ name = "assumption_approved" := by simpa [inTexts, usableStatuses] using husable
          have htext : s.text entry "status" "missing" = stripText name := by
            rw [Requirements.Host.text, Requirements.field, hstatus]
            rfl
          rw [htext]
          rcases hname with rfl | rfl <;> decide
      | _ => simp [inTexts] at husable

theorem documentFindings_unresolved (hunresolved : unresolved s.toHost lock reference)
    {read : String → Except String (Option (List Char))} {refreshed findings : List String}
    (hfindings : documentFindings s read lock trace refreshed reference = .ok findings) : findings ≠ [] := by
  simp only [documentFindings, bind_ok] at hfindings
  obtain ⟨status, hstatus, usable, husable, checked, _, hfindings⟩ := hfindings
  have hnot := effectiveStatus_unresolved hunresolved hstatus
  have hfalse : usable = false := by
    cases hentry : lockEntry s.toHost lock reference with
    | none => simpa [hentry] using husable.symm
    | some entry =>
        by_contra htrue
        rw [Bool.not_eq_false] at htrue
        rw [hentry, htrue] at husable
        exact hunresolved entry hentry (usable_status husable)
  have herror : errorIf (decide (status ∉ usableStatuses) && !usable) (reference ++ ": required protocol evidence is unresolved") ≠ [] := by
    simp [Requirements.errorIf, hnot, hfalse]
  split at hfindings
  · simp only [bind_ok, pure_ok] at hfindings
    obtain ⟨text, _, rfl⟩ := hfindings
    exact List.append_ne_nil_of_left_ne_nil herror _
  · rw [← pure_ok.mp hfindings]
    exact herror

/-- After writes that are accepted, a reference that was not resolved is still not, and no reply is valid. -/
theorem validateWorkspace_refuses {links : Links} {controlled : Bytes → Except String Bool} {text : String → Except String String}
    {context : Context φ} {history : History φ} {proposal : Proposal} {ws after : Workspace} (howned : Owned ws)
    (htrace : loadRequirementsTrace links controlled ws = .ok trace) (hlock : loadProviderReferencesLock links ws = .ok lock)
    (hrequired : reference ∈ requiredReferences s trace) (hunresolved : unresolved s.toHost lock reference)
    (hwrites : Stage.stageWrites (Stage.workspaceGuard links ws) (Stage.workspaceGuard links after) .providerResearch [] = .ok ())
    (result : Lock φ × History φ) : validateWorkspace s links controlled text context history proposal after ≠ .ok result := by
  intro hok
  simp only [validateWorkspace, bind_ok] at hok
  obtain ⟨trace', htrace', lock', hlock', hvalid⟩ := hok
  obtain rfl := trace_kept hwrites howned htrace (caught_ok htrace')
  obtain rfl := lock_kept hwrites howned hlock (caught_ok hlock')
  have hfindings := (validateProviderDocuments_ok hvalid).2.1 reference hrequired
  exact documentFindings_unresolved hunresolved hfindings rfl

/-- Where a reference that the trace requires is not resolved, the phase cannot be completed: the lock is not among the documents that
it may write. -/
theorem research_incomplete (s : Surroundings φ) (links : Links) (controlled : Bytes → Except String Bool)
    (text : String → Except String String) (context : Context φ) (history : History φ) {ws : Workspace} {trace : Fields φ} {lock : Lock φ}
    {reference : String} (howned : Owned ws) (htrace : loadRequirementsTrace links controlled ws = .ok trace)
    (hlock : loadProviderReferencesLock links ws = .ok lock) (hrequired : reference ∈ requiredReferences s trace)
    (hunresolved : unresolved s.toHost lock reference) : ¬ Completes s links controlled text context history ws := by
  rintro ⟨after, proposal, result, hwrites, hok⟩
  exact validateWorkspace_refuses howned htrace hlock hrequired hunresolved hwrites result hok

end

/-! ### A requirement that needs the documents of a provider -/

def plainSurroundings : Surroundings FloatLiteral where
  toHost := Requirements.plainHost
  digest v := String.ofList v.encode
  lower := id
  date v := match v with | .int n => some n | _ => none
  now := 0
  stamp := "2026-01-01T00:00:00+00:00"
  source url _ := [("url", .str url), ("outcome", .str "unavailable")]

def providerReference : String := ".auto-agents/docs/provider_references/provider.md"

def providerTrace : Base.Json FloatLiteral :=
  .obj [("version", .int 1), ("requirements", .arr [.obj [("id", .str "REQ-001"), ("status", .str "active"),
    ("external_docs_required", .bool true), ("provider_reference", .str providerReference)]])]

/-- A workspace as it is made for a work item, with a trace and without a lock. -/
def providerWorkspace : Workspace :=
  { Stage.emptyWorkspace with
    files := (AList.singleton Stage.tracePath ⟨.regular, Stage.textBytes providerTrace⟩).insert markerPath ⟨.regular, [123, 125]⟩ }

/-- No store says anything about the workspace. -/
def noStore (_ : Bytes) : Except String Bool := .ok false

theorem providerWorkspace_owned : Owned providerWorkspace := by
  have hregular : ∀ p, providerWorkspace.isSymlink p = false := by
    intro p
    by_cases hmarker : p = markerPath
    · subst hmarker
      rfl
    · by_cases htrace : p = Stage.tracePath
      · subst htrace
        rfl
      · have hnone : providerWorkspace.files.lookup p = none := by
          refine AList.lookup_eq_none.mpr ?_
          simp [providerWorkspace, AList.mem_keys, AList.keys_singleton, hmarker, htrace]
        simp [Workspace.isSymlink, hnone]
  intro p _
  exact List.any_eq_false.mpr fun q _ => by simp [hregular q]

/-- A document that was written is read back. -/
theorem readJson_textBytes {links : Links} {ws : Workspace} {p : Path} {v : Base.Json FloatLiteral}
    (hcontent : content links ws p = .ok (some (Stage.textBytes v))) (hplain : ∀ c ∈ v.encode, c ≠ '\r') (hdistinct : v.Distinct) :
    readJson links ws p = .ok v := by
  have htext : String.fromUTF8? ⟨(Stage.textBytes v).toArray⟩ = some (String.ofList v.encode) :=
    dif_pos (String.ofList v.encode).isValidUTF8
  have hread : readText links ws p = .ok (some v.encode) := by
    simp only [readText, hcontent, bind, Except.bind, htext, String.toList_ofList, Stage.universalNewlines_plain hplain, pure, Except.pure]
  simp only [readJson, hread, bind, Except.bind, decode_encode hdistinct, pure, Except.pure]

def providerFields : Fields FloatLiteral :=
  match providerTrace with
  | .obj fields => normalizeTrace fields
  | _ => []

theorem providerWorkspace_trace : loadRequirementsTrace noLinks noStore providerWorkspace = .ok providerFields := by
  have hpath : requirementsTracePath noLinks noStore providerWorkspace = .ok Stage.tracePath := by
    rw [requirementsTracePath, if_pos]
    · rfl
    · rw [isFile_owned (providerWorkspace_owned markerPath (by decide))]
      rfl
  have hcontent : content noLinks providerWorkspace Stage.tracePath = .ok (some (Stage.textBytes providerTrace)) := by
    have hlookup : providerWorkspace.files.lookup Stage.tracePath = some ⟨.regular, Stage.textBytes providerTrace⟩ := rfl
    simp only [content, providerWorkspace_owned Stage.tracePath (by decide), hlookup, Bool.false_eq_true, if_false]
  have hplain : ∀ c ∈ providerTrace.encode, c ≠ '\r' := by
    have hnot : '\r' ∉ providerTrace.encode := by decide +kernel
    rintro c hc rfl
    exact hnot hc
  have hdistinct : providerTrace.Distinct := by simp [providerTrace, Json.Distinct, DistinctItems, DistinctFields]
  exact bind_ok.mpr ⟨_, hpath, bind_ok.mpr ⟨_, readJson_textBytes hcontent hplain hdistinct, rfl⟩⟩

theorem providerWorkspace_lock : loadProviderReferencesLock (φ := FloatLiteral) noLinks providerWorkspace =
    .ok [("version", .int 1), ("references", .obj [])] := by
  have hcontent : content noLinks providerWorkspace lockPath = .ok none := by
    have hlookup : providerWorkspace.files.lookup lockPath = none := rfl
    have hdirectory : providerWorkspace.isDirectory lockPath = false := rfl
    simp only [content, providerWorkspace_owned lockPath (by decide), hlookup, hdirectory, Bool.false_eq_true, if_false]
  simp only [loadProviderReferencesLock, readJson, readText, hcontent, bind, Except.bind]
  rfl

theorem providerReference_required : providerReference ∈ requiredReferences plainSurroundings providerFields := by decide +kernel

theorem providerReference_unresolved :
    unresolved plainSurroundings.toHost [("version", .int 1), ("references", .obj [])] providerReference := by
  intro entry hentry
  cases hentry

theorem providerWorkspace_incomplete : ¬ Completes plainSurroundings noLinks noStore .ok [] [] providerWorkspace :=
  research_incomplete plainSurroundings noLinks noStore .ok [] [] providerWorkspace_owned providerWorkspace_trace
    providerWorkspace_lock providerReference_required providerReference_unresolved

/-- The phase of the workspace of a work item that needs one reference has no end. -/
theorem provider_research_blocked : ¬ ∀ (ws : Workspace) (trace lock : Fields FloatLiteral) (reference : String),
    loadRequirementsTrace noLinks noStore ws = .ok trace → loadProviderReferencesLock noLinks ws = .ok lock →
      reference ∈ requiredReferences plainSurroundings trace → unresolved plainSurroundings.toHost lock reference →
        ∃ context, Completes plainSurroundings noLinks noStore .ok context [] ws := by
  intro hall
  obtain ⟨context, after, proposal, result, hwrites, hok⟩ :=
    hall providerWorkspace _ _ providerReference providerWorkspace_trace providerWorkspace_lock providerReference_required
      providerReference_unresolved
  exact validateWorkspace_refuses providerWorkspace_owned providerWorkspace_trace providerWorkspace_lock providerReference_required
    providerReference_unresolved hwrites result hok

end AutoAgents.Provider
