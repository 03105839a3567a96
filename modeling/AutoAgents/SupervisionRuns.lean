import AutoAgents.BaseRun
import AutoAgents.SupervisionSteps

/-! The leases of a supervised attempt: over every run, what the tool table holds, when an attempt is
answered to be stalled, what renews the lease, and that equal completions end the attempt. -/

namespace AutoAgents.Supervision

open Base Base.System

variable {φ : Type}

/-! ### Runs -/

/-- What reaches the supervisor, or happens around it, with the reading of the clock at which it begins. Every
event has the reading at which it is handled. -/
inductive Input (φ : Type)
  | change (now : ℚ) (files : Files)
  | evidence (now : ℚ) (payload : Option (Json φ))
  | events (now : ℚ) (events : List (ℚ × AgentProgressEvent))
  | io (now : ℚ) (chunk : String) (fed : Option (List (ℚ × AgentProgressEvent)))
  | poll (now : ℚ) (decoded : List (ℚ × AgentProgressEvent)) (failed : Bool) (snapshot : Snapshot)

namespace Input

def now : Input φ → ℚ
  | change now _ => now
  | evidence now _ => now
  | events now _ => now
  | io now _ _ => now
  | poll now _ _ _ => now

/-- The events that the supervisor handles. -/
def handled (v : Supervisor) : Input φ → List (ℚ × AgentProgressEvent)
  | change _ _ => []
  | evidence _ _ => []
  | events _ given => given
  | io _ _ fed => if v.decoder.isSome then fed.getD [] else []
  | poll _ decoded _ _ => if v.decoder.isSome then decoded else []

end Input

/-- The inputs of a tool, where it was started, and its result. -/
abbrev Completion := Option (String × String) × String × String

/-- The fingerprint of a completion in front of the files as they are. -/
def Supervisor.completionFingerprint (v : Supervisor) (files : Files) (c : Completion) : String :=
  v.loopFingerprint (State.editState v files c.2.2)
    { kind := "tool_completed", detail := c.2.2,
      fingerprint := match c.1 with
        | some context => v.digest (Supervisor.contextText context c.2.1)
        | none => c.2.1 }

/-- An attempt: the supervisor with what stands around it, and beside it what has really happened. -/
structure Run (φ : Type) where
  state : State
  files : Files
  payload : Option (Json φ)
  /-- the reading of the clock at the last input, and what a poll answered to it -/
  asked : ℚ
  answer : Option String
  /-- the last change of the files, and the last new semantic event -/
  changedAt : ℚ
  newAt : ℚ
  fingerprints : List String
  started : List String
  completed : List String
  /-- how many of the last completions were equal, with the files unchanged -/
  equal : Nat
  equalTo : Option Completion
  /-- the checkpoints that were there at a poll, and the polls that found new ones -/
  observed : List String
  renewals : List (ℚ × List String)

namespace Run

def start (v : Supervisor) (now : ℚ) (files : Files) (payload : Option (Json φ)) : Run φ where
  state := State.start v now files payload
  files := files
  payload := payload
  asked := now
  answer := none
  changedAt := now
  newAt := now
  fingerprints := []
  started := []
  completed := []
  equal := 0
  equalTo := none
  observed := v.trustedCheckpoints payload
  renewals := []

def completion (v : Supervisor) (r : Run φ) (e : AgentProgressEvent) : Completion :=
  (r.state.context v e, e.fingerprint, e.detail)

def event (v : Supervisor) (r : Run φ) (event : ℚ × AgentProgressEvent) : Run φ :=
  let e := event.2
  let s := r.state.observe v r.files event.1 e
  let fingerprint := v.semanticFingerprint s.sampled (r.state.effective v e)
  { r with
    state := s
    newAt := if e.semantic = true ∧ fingerprint ∉ r.fingerprints then r.asked else r.newAt
    fingerprints := if e.semantic = true then fingerprint :: r.fingerprints else r.fingerprints
    started := if e.kind = "tool_started" then e.toolId :: r.started else r.started
    completed := if e.kind = "tool_completed" then e.toolId :: r.completed else r.completed
    equal :=
      if e.kind = "tool_completed" then if r.equalTo = some (r.completion v e) then r.equal + 1 else 1 else r.equal
    equalTo := if e.kind = "tool_completed" then some (r.completion v e) else r.equalTo }

def events (v : Supervisor) (r : Run φ) (events : List (ℚ × AgentProgressEvent)) : Run φ := events.foldl (Run.event v) r

/-- A poll behind the events of its decoder. -/
def judge (v : Supervisor) (r : Run φ) (now : ℚ) (failed : Bool) (snapshot : Snapshot) : Run φ :=
  let s := r.state.afterDecoder v r.files r.payload now failed snapshot
  let new := (v.trustedCheckpoints r.payload).filter (· ∉ r.observed)
  { r with
    state := s
    answer := s.reason v now
    observed := v.trustedCheckpoints r.payload ++ r.observed
    renewals := if new ≠ [] then (now, new) :: r.renewals else r.renewals }

def next (v : Supervisor) (r : Run φ) : Input φ → Run φ
  | .change now files =>
    if files = r.files then { r with asked := now, answer := none }
    else { r with asked := now, answer := none, files := files, changedAt := now, equal := 0, equalTo := none }
  | .evidence now payload => { r with asked := now, answer := none, payload := payload }
  | .events now events => ({ r with asked := now, answer := none } : Run φ).events v events
  | .io now chunk fed =>
    let s := if chunk ≠ "" then { r.state with lastProviderActivity := now } else r.state
    let r := { r with asked := now, answer := none, state := s }
    if v.decoder.isSome then
      match fed with
      | some events => r.events v events
      | none => { r with state := { s with forcedReason := "protocol_error" } }
    else r
  | .poll now decoded failed snapshot =>
    let r := { r with asked := now, answer := none }
    (r.events v (if v.decoder.isSome then decoded else [])).judge v now failed snapshot

theorem events_state (v : Supervisor) (r : Run φ) (events : List (ℚ × AgentProgressEvent)) :
    (r.events v events).state = r.state.observeEvents v r.files events ∧ (r.events v events).files = r.files ∧
      (r.events v events).payload = r.payload ∧ (r.events v events).asked = r.asked := by
  induction events generalizing r with
  | nil => exact ⟨rfl, rfl, rfl, rfl⟩
  | cons event events ih => exact ih (r.event v event)

/-- A run does with its state what the supervisor does. -/
theorem next_poll (v : Supervisor) (r : Run φ) (now : ℚ) (decoded : List (ℚ × AgentProgressEvent)) (failed : Bool)
    (snapshot : Snapshot) :
    ((r.next v (.poll now decoded failed snapshot)).state, (r.next v (.poll now decoded failed snapshot)).answer) =
      r.state.poll v r.files r.payload now decoded failed snapshot := by
  obtain ⟨hstate, hfiles, hpayload, -⟩ := ({ r with asked := now, answer := none } : Run φ).events_state v
    (if v.decoder.isSome then decoded else [])
  simp only [next, judge, hstate, hfiles, hpayload, State.poll]
  split <;> rfl

theorem next_io (v : Supervisor) (r : Run φ) (now : ℚ) (chunk : String) (fed : Option (List (ℚ × AgentProgressEvent))) :
    (r.next v (.io now chunk fed)).state = r.state.observeIo v r.files now chunk fed := by
  simp only [next, State.observeIo]
  by_cases hdecoder : v.decoder.isSome = true
  · simp only [if_pos hdecoder]
    cases fed with
    | none => rfl
    | some events => exact (events_state v _ events).1
  · simp only [if_neg hdecoder]

theorem next_events (v : Supervisor) (r : Run φ) (now : ℚ) (events : List (ℚ × AgentProgressEvent)) :
    (r.next v (.events now events)).state = r.state.observeEvents v r.files events :=
  (events_state v _ events).1

end Run

/-- The attempts of one supervisor. -/
def system (φ : Type) (v : Supervisor) : System (Run φ) (Input φ) where
  start r := ∃ now files payload, r = Run.start v now files payload
  step r input r' := r' = r.next v input

/-- A tool has an id of its own, which names it from its start to its one completion. -/
def OwnId (started completed : List String) (e : AgentProgressEvent) : Prop :=
  (e.kind = "tool_started" → e.toolId ≠ "" ∧ e.toolId ∉ started ∧ e.toolId ∉ completed) ∧
    (e.kind = "tool_completed" → e.toolId ≠ "" ∧ e.toolId ∉ completed)

def OwnIds : List String → List String → List (ℚ × AgentProgressEvent) → Prop
  | _, _, [] => True
  | started, completed, (_, e) :: events =>
    OwnId started completed e ∧
      OwnIds (if e.kind = "tool_started" then e.toolId :: started else started)
        (if e.kind = "tool_completed" then e.toolId :: completed else completed) events

/-- The clock does not go back, and the ids of tools are their own. -/
structure Orderly (v : Supervisor) (r : Run φ) (input : Input φ) : Prop where
  clock : r.asked ≤ input.now
  readings : ∀ event ∈ input.handled v, input.now ≤ event.1
  ids : OwnIds r.started r.completed (input.handled v)

/-- No tool completion and no stall is judged while a change of the files is still to be sampled: a change leads to other
contents than were sampled last, a completion comes behind the sample of each change, and a poll either has its probe
due or stands within the lease. -/
def Timely (v : Supervisor) (r : Run φ) (input : Input φ) : Prop :=
  v.trustedProgress = true ∨
    match input with
    | .change _ files => files = r.files ∨ files ≠ r.state.sampled
    | .poll now _ _ _ =>
      r.files = r.state.sampled ∨
        (∀ event ∈ input.handled v, event.2.kind ≠ "tool_completed") ∧
          (workspacePollSeconds ≤ now - r.state.lastWorkspacePoll ∨
            now - r.state.lastSemanticProgress < v.effectiveProgressLeaseSeconds)
    | _ => r.files = r.state.sampled ∨ ∀ event ∈ input.handled v, event.2.kind ≠ "tool_completed"

/-- The lease is renewed by real progress alone. -/
structure Supervised (v : Supervisor) (r : Run φ) : Prop where
  tools : ∀ id, id ∈ r.state.activeTools ↔ id ∈ r.started ∧ id ∉ r.completed
  stall : v.trustedProgress = false → r.answer = some "semantic_stall" →
    (∀ id ∈ r.started, id ∈ r.completed) ∧ (v.effectiveProgressLeaseSeconds : ℚ) ≤ r.asked - r.newAt ∧
      (v.effectiveProgressLeaseSeconds : ℚ) ≤ r.asked - r.changedAt
  lease : v.trustedProgress = true →
    r.state.lastSemanticProgress = (r.renewals.head?.map Prod.fst).getD r.state.startedAt
  checkpoints : v.trustedProgress = true → ∀ renewal ∈ r.renewals, renewal.2 ≠ [] ∧
    ∀ checkpoint ∈ renewal.2, ∃ target ∈ v.request.progressExpectedChecks, ∃ phase, checkpoint = target ++ ":" ++ phase
  once : v.trustedProgress = true → r.renewals.Pairwise fun a b => List.Disjoint a.2 b.2
  loop : v.config.loopRepeatLimit ≤ r.equal → ∀ files payload now decoded failed snapshot,
    (State.poll (φ := φ) v files payload now decoded failed snapshot r.state).2 ≠ none

/-! ### The table -/

def Tools (r : Run φ) : Prop := ∀ id, id ∈ r.state.activeTools ↔ id ∈ r.started ∧ id ∉ r.completed

namespace State

variable {v : Supervisor} {files : Files} {now : ℚ} {s : State} {e : AgentProgressEvent}

theorem observeSemantic_keeps : (s.observeSemantic v now e).activeTools = s.activeTools ∧
    (s.observeSemantic v now e).sampled = s.sampled ∧
    (s.observeSemantic v now e).seenVerifiedCheckpoints = s.seenVerifiedCheckpoints ∧
    (s.observeSemantic v now e).startedAt = s.startedAt ∧
    (s.observeSemantic v now e).repeatCount = s.repeatCount ∧
    (s.observeSemantic v now e).lastLoopFingerprint = s.lastLoopFingerprint ∧
    (s.observeSemantic v now e).forcedReason = s.forcedReason := by
  unfold observeSemantic
  split <;> exact ⟨rfl, rfl, rfl, rfl, rfl, rfl, rfl⟩

/-- The state in which the kind of an event is looked at. -/
def heard (now : ℚ) (s : State) (e : AgentProgressEvent) : State :=
  { s with
    protocolSeen := true
    lastProviderActivity := now
    sessionId := if e.sessionId = "" then s.sessionId else e.sessionId }

theorem observe_eq : s.observe v files now e =
    ((s.heard now e).observeTool v files now e).observeSemantic v now (s.effective v e) := rfl

end State

theorem Tools.event {v : Supervisor} {r : Run φ} (h : Tools r) {event : ℚ × AgentProgressEvent} (hid : OwnId r.started r.completed event.2) :
    Tools (r.event v event) := by
  obtain ⟨t, e⟩ := event
  have hids : e.kind = "tool_started" ∨ e.kind = "tool_completed" → e.toolId ≠ "" := by
    rintro (hstarted | hcompleted)
    · exact (hid.1 hstarted).1
    · exact (hid.2 hcompleted).1
  intro id
  have hactive := @State.mem_observeTool v r.files t (r.state.heard t e) e id hids
  change id ∈ (r.state.observe v r.files t e).activeTools ↔
    id ∈ (if e.kind = "tool_started" then e.toolId :: r.started else r.started) ∧
      id ∉ (if e.kind = "tool_completed" then e.toolId :: r.completed else r.completed)
  rw [State.observe_eq, State.observeSemantic_keeps.1, hactive]
  have hbefore : id ∈ (r.state.heard t e).activeTools ↔ id ∈ r.started ∧ id ∉ r.completed := h id
  by_cases hstarted : e.kind = "tool_started"
  · have hcompleted : e.kind ≠ "tool_completed" := by
      rw [hstarted]
      decide
    obtain ⟨-, -, hfresh⟩ := hid.1 hstarted
    rw [if_pos hstarted, if_pos hstarted, if_neg hcompleted, hbefore, List.mem_cons]
    constructor
    · rintro (⟨hmem, hnot⟩ | rfl)
      · exact ⟨.inr hmem, hnot⟩
      · exact ⟨.inl rfl, hfresh⟩
    · rintro ⟨rfl | hmem, hnot⟩
      · exact .inr rfl
      · exact .inl ⟨hmem, hnot⟩
  · rw [if_neg hstarted, if_neg hstarted]
    by_cases hcompleted : e.kind = "tool_completed"
    · rw [if_pos hcompleted, if_pos hcompleted, hbefore, List.mem_cons, not_or, and_assoc, and_comm (a := id ∉ r.completed)]
    · rw [if_neg hcompleted, if_neg hcompleted, hbefore]

theorem Tools.events {v : Supervisor} {events : List (ℚ × AgentProgressEvent)} {r : Run φ} (h : Tools r)
    (hids : OwnIds r.started r.completed events) : Tools (r.events v events) := by
  induction events generalizing r with
  | nil => exact h
  | cons event events ih => exact ih (h.event hids.1) hids.2

theorem Tools.judge {v : Supervisor} {r : Run φ} (h : Tools r) (now : ℚ) (failed : Bool) (snapshot : Snapshot) :
    Tools (r.judge v now failed snapshot) := by
  intro id
  change id ∈ (r.state.afterDecoder v r.files r.payload now failed snapshot).activeTools ↔ _
  rw [State.afterDecoder_active.1]
  exact h id

/-! ### The lease outside trusted progress -/

/-- The lease is as young as the last new event, and as the last change where that has been sampled. -/
structure Leased (v : Supervisor) (r : Run φ) : Prop where
  changed : r.changedAt ≤ r.asked
  new : r.newAt ≤ r.asked
  forced : r.state.forcedReason ≠ "semantic_stall"
  seen : v.trustedProgress = false → r.state.seenSemanticFingerprints ⊆ r.fingerprints
  newLease : v.trustedProgress = false → r.newAt ≤ r.state.lastSemanticProgress
  changedLease : v.trustedProgress = false → r.files = r.state.sampled → r.changedAt ≤ r.state.lastSemanticProgress

/-- What a step makes of the lease, where it begins behind the last input. -/
theorem Leased.leads {v : Supervisor} {r : Run φ} (h : Leased v r) {now : ℚ} {s : State}
    (hleads : State.Leads v r.files now r.state s) (hnow : r.asked ≤ now) :
    s.forcedReason ≠ "semantic_stall" ∧
      (v.trustedProgress = false → r.newAt ≤ s.lastSemanticProgress) ∧
      (v.trustedProgress = false → r.files = s.sampled → r.changedAt ≤ s.lastSemanticProgress) := by
  refine ⟨?_, fun htrusted => ?_, fun htrusted hsync => ?_⟩
  · rcases hleads.forced with heq | hmem
    · rw [heq]
      exact h.forced
    · intro heq
      rw [heq] at hmem
      exact absurd hmem (by decide)
  · rcases hleads.lease with heq | hle
    · rw [heq]
      exact h.newLease htrusted
    · exact h.new.trans (hnow.trans hle)
  · by_cases hsame : s.sampled = r.state.sampled
    · rcases hleads.lease with heq | hle
      · rw [heq]
        exact h.changedLease htrusted (hsync.trans hsame)
      · exact h.changed.trans (hnow.trans hle)
    · exact h.changed.trans (hnow.trans (hleads.renewed htrusted hsame))

theorem Leased.event {v : Supervisor} {r : Run φ} (h : Leased v r) {event : ℚ × AgentProgressEvent}
    (hnow : r.asked ≤ event.1) : Leased v (r.event v event) := by
  obtain ⟨t, e⟩ := event
  have hleads : State.Leads v r.files t r.state (r.state.observe v r.files t e) := State.observe_leads
  obtain ⟨hforced, hnew, hchanged⟩ := h.leads hleads hnow
  have hseen : ((r.state.heard t e).observeTool v r.files t e).seenSemanticFingerprints =
      r.state.seenSemanticFingerprints := State.observeTool_keeps.1
  let u := (r.state.heard t e).observeTool v r.files t e
  have hsampled : (r.state.observe v r.files t e).sampled = u.sampled := State.observeSemantic_keeps.2.1
  -- an event that is new to the run is new to the supervisor
  have hobserved : v.trustedProgress = false → r.state.seenSemanticFingerprints ⊆ r.fingerprints →
      (r.state.observe v r.files t e).seenSemanticFingerprints ⊆
        (if e.semantic = true then v.semanticFingerprint u.sampled (r.state.effective v e) :: r.fingerprints
          else r.fingerprints) ∧
      (e.semantic = true ∧ v.semanticFingerprint u.sampled (r.state.effective v e) ∉ r.fingerprints →
        (r.state.observe v r.files t e).lastSemanticProgress = t) := by
    intro htrusted hsub
    rw [State.observe_eq, State.observeSemantic, State.effective_semantic]
    by_cases hsemantic : e.semantic = true
    · rw [if_pos hsemantic]
      by_cases hmem : v.semanticFingerprint u.sampled (r.state.effective v e) ∉ u.seenSemanticFingerprints
      · rw [if_pos ⟨hsemantic, htrusted, hmem⟩]
        refine ⟨List.cons_subset_cons _ ?_, fun _ => rfl⟩
        rw [hseen]
        exact hsub
      · rw [if_neg fun hall => hmem hall.2.2]
        refine ⟨?_, fun hfresh => absurd (hsub ?_) hfresh.2⟩
        · rw [hseen]
          exact List.subset_cons_of_subset _ hsub
        · rw [← hseen]
          exact not_not.mp hmem
    · rw [if_neg fun hall => hsemantic hall.1, if_neg hsemantic]
      refine ⟨?_, fun hfresh => absurd hfresh.1 hsemantic⟩
      rw [hseen]
      exact hsub
  refine ⟨h.changed, ?_, hforced, ?_, ?_, hchanged⟩
  · change (if _ then r.asked else r.newAt) ≤ r.asked
    split
    · exact le_rfl
    · exact h.new
  · intro htrusted
    have hsub := (hobserved htrusted (h.seen htrusted)).1
    rw [← hsampled] at hsub
    exact hsub
  · intro htrusted
    change (if _ then r.asked else r.newAt) ≤ (r.state.observe v r.files t e).lastSemanticProgress
    split
    · next hfresh =>
      rw [hsampled] at hfresh
      rw [(hobserved htrusted (h.seen htrusted)).2 hfresh]
      exact hnow
    · exact hnew htrusted

theorem Leased.events {v : Supervisor} {events : List (ℚ × AgentProgressEvent)} {r : Run φ} (h : Leased v r)
    (hnow : ∀ event ∈ events, r.asked ≤ event.1) : Leased v (r.events v events) := by
  induction events generalizing r with
  | nil => exact h
  | cons event events ih =>
    exact ih (h.event (hnow event List.mem_cons_self)) fun event' hmem => hnow event' (List.mem_cons_of_mem _ hmem)

theorem events_leads {v : Supervisor} {events : List (ℚ × AgentProgressEvent)} {r : Run φ} {now : ℚ}
    (hnow : ∀ event ∈ events, now ≤ event.1) : State.Leads v r.files now r.state (r.events v events).state := by
  induction events generalizing r with
  | nil => exact State.Leads.refl v r.files now r.state
  | cons event events ih =>
    have hone : State.Leads v r.files event.1 r.state (r.event v event).state := State.observe_leads
    have hrest := @ih (r.event v event) fun event' hmem => hnow event' (List.mem_cons_of_mem _ hmem)
    exact (hone.mono (hnow event List.mem_cons_self)).trans hrest

theorem Leased.judge {v : Supervisor} {r : Run φ} (h : Leased v r) {now : ℚ} (hnow : r.asked ≤ now) (failed : Bool)
    (snapshot : Snapshot) : Leased v (r.judge v now failed snapshot) := by
  have hleads : State.Leads v r.files now r.state (r.state.afterDecoder v r.files r.payload now failed snapshot) :=
    State.afterDecoder_leads
  obtain ⟨hforced, hnew, hchanged⟩ := h.leads hleads hnow
  refine ⟨h.changed, h.new, hforced, fun htrusted => ?_, hnew, hchanged⟩
  change (r.state.afterDecoder v r.files r.payload now failed snapshot).seenSemanticFingerprints ⊆ _
  rw [State.afterDecoder_active.2.1]
  exact h.seen htrusted

/-! ### The lease under trusted progress -/

namespace State

variable {v : Supervisor} {files : Files} {now : ℚ} {s : State} {e : AgentProgressEvent}

theorem confirmLoop_lease (h : v.trustedProgress = true) :
    (s.confirmLoop v files now).lastSemanticProgress = s.lastSemanticProgress := by
  unfold confirmLoop
  split
  · dsimp only
    split <;> exact lease_sampleWorkspace h
  · rfl

theorem countLoop_lease (fingerprint : String) :
    (s.countLoop fingerprint).lastSemanticProgress = s.lastSemanticProgress := by
  unfold countLoop
  split <;> rfl

theorem observeTool_lease (h : v.trustedProgress = true) :
    (s.observeTool v files now e).lastSemanticProgress = s.lastSemanticProgress := by
  have hloop : ∀ (t : State) (d : AgentProgressEvent),
      (t.observeLoop v files now d).lastSemanticProgress = t.lastSemanticProgress := by
    intro t d
    rw [observeLoop, if_pos h]
    split
    · rw [confirmLoop_lease h, countLoop_lease, lease_sampleWorkspace h]
    · rw [confirmLoop_lease h, countLoop_lease]
  unfold observeTool
  split
  · rfl
  · split
    · split <;> rfl
    · split
      · exact hloop _ _
      · split <;> rfl

/-- Under trusted progress no event touches the lease. -/
theorem observe_trusted (h : v.trustedProgress = true) :
    (s.observe v files now e).lastSemanticProgress = s.lastSemanticProgress ∧
      (s.observe v files now e).seenVerifiedCheckpoints = s.seenVerifiedCheckpoints ∧
      (s.observe v files now e).startedAt = s.startedAt := by
  have hsemantic : s.observe v files now e = (s.heard now e).observeTool v files now e := by
    rw [observe_eq, observeSemantic, if_neg]
    intro hall
    rw [h] at hall
    cases hall.2.1
  rw [hsemantic]
  have hkeeps := @observeTool_keeps v files now (s.heard now e) e
  exact ⟨observeTool_lease h, hkeeps.2.1, hkeeps.2.2⟩

end State

/-- Every renewal belongs to checkpoints that no earlier one had. -/
structure Proven (v : Supervisor) (r : Run φ) : Prop where
  seen : ∀ checkpoint, checkpoint ∈ r.state.seenVerifiedCheckpoints ↔ checkpoint ∈ r.observed
  lease : r.state.lastSemanticProgress = (r.renewals.head?.map Prod.fst).getD r.state.startedAt
  within : ∀ renewal ∈ r.renewals, renewal.2 ⊆ r.observed
  checkpoints : ∀ renewal ∈ r.renewals, renewal.2 ≠ [] ∧
    ∀ checkpoint ∈ renewal.2, ∃ target ∈ v.request.progressExpectedChecks, ∃ phase, checkpoint = target ++ ":" ++ phase
  once : r.renewals.Pairwise fun a b => List.Disjoint a.2 b.2

/-- A checkpoint counts for expected checks alone. -/
theorem mem_trustedCheckpoints {v : Supervisor} {payload : Option (Json φ)} {checkpoint : String}
    (h : checkpoint ∈ v.trustedCheckpoints payload) :
    ∃ target ∈ v.request.progressExpectedChecks, ∃ phase, checkpoint = target ++ ":" ++ phase := by
  unfold Supervisor.trustedCheckpoints at h
  split at h
  · split at h
    · split at h
      · split at h
        · obtain ⟨given, -, hmem⟩ := List.mem_flatMap.mp h
          unfold Supervisor.observedTargets at hmem
          split at hmem
          · cases hmem
          · next identity phase _ =>
            obtain ⟨target, htarget, rfl⟩ := List.mem_map.mp hmem
            exact ⟨target, List.mem_of_mem_filter htarget, phase, rfl⟩
        · cases h
      · cases h
    · cases h
  · cases h

theorem Proven.event {v : Supervisor} {r : Run φ} (h : Proven v r) (htrusted : v.trustedProgress = true)
    (event : ℚ × AgentProgressEvent) : Proven v (r.event v event) := by
  obtain ⟨hlease, hseen, hstarted⟩ := @State.observe_trusted v r.files event.1 r.state event.2 htrusted
  refine ⟨fun checkpoint => ?_, ?_, h.within, h.checkpoints, h.once⟩
  · change checkpoint ∈ (r.state.observe v r.files event.1 event.2).seenVerifiedCheckpoints ↔ _
    rw [hseen]
    exact h.seen checkpoint
  · change (r.state.observe v r.files event.1 event.2).lastSemanticProgress =
      (r.renewals.head?.map Prod.fst).getD (r.state.observe v r.files event.1 event.2).startedAt
    rw [hlease, hstarted]
    exact h.lease

theorem Proven.events {v : Supervisor} {r : Run φ} (h : Proven v r) (htrusted : v.trustedProgress = true)
    (events : List (ℚ × AgentProgressEvent)) : Proven v (r.events v events) := by
  induction events generalizing r with
  | nil => exact h
  | cons event events ih => exact ih (h.event htrusted event)

theorem Proven.judge {v : Supervisor} {r : Run φ} (h : Proven v r) (htrusted : v.trustedProgress = true) (now : ℚ)
    (failed : Bool) (snapshot : Snapshot) : Proven v (r.judge v now failed snapshot) := by
  obtain ⟨hseen, hlease⟩ := @State.afterDecoder_verified φ v r.files now r.state r.payload failed snapshot htrusted
  have hstarted := (@State.afterDecoder_active φ v r.files now r.state r.payload failed snapshot).2.2
  have hsame : (v.trustedCheckpoints r.payload).filter (· ∉ r.state.seenVerifiedCheckpoints) =
      (v.trustedCheckpoints r.payload).filter (· ∉ r.observed) := by
    refine List.filter_congr fun checkpoint _ => ?_
    simp only [h.seen]
  rw [hsame] at hseen hlease
  let new := (v.trustedCheckpoints r.payload).filter (· ∉ r.observed)
  have hnew : ∀ checkpoint ∈ new, checkpoint ∈ v.trustedCheckpoints r.payload ∧ checkpoint ∉ r.observed := by
    intro checkpoint hmem
    simpa [new] using hmem
  by_cases hempty : new = []
  · have hrun : r.judge v now failed snapshot = { r with
        state := r.state.afterDecoder v r.files r.payload now failed snapshot
        answer := (r.state.afterDecoder v r.files r.payload now failed snapshot).reason v now
        observed := v.trustedCheckpoints r.payload ++ r.observed } := by
      rw [Run.judge, if_neg (not_not.mpr hempty)]
    rw [if_neg (not_not.mpr hempty)] at hseen hlease
    have hold : ∀ checkpoint ∈ v.trustedCheckpoints r.payload, checkpoint ∈ r.observed := by
      intro checkpoint hmem
      by_contra hnot
      have hin : checkpoint ∈ new := by simpa [new] using ⟨hmem, hnot⟩
      rw [hempty] at hin
      cases hin
    rw [hrun]
    refine ⟨fun checkpoint => ?_, ?_, ?_, h.checkpoints, h.once⟩
    · simp only [hseen, h.seen, List.mem_append]
      exact ⟨.inr, fun hmem => hmem.elim (hold checkpoint) id⟩
    · simp only [hlease, hstarted]
      exact h.lease
    · exact fun renewal hmem checkpoint hin => List.mem_append_right _ (h.within renewal hmem hin)
  · have hrun : r.judge v now failed snapshot = { r with
        state := r.state.afterDecoder v r.files r.payload now failed snapshot
        answer := (r.state.afterDecoder v r.files r.payload now failed snapshot).reason v now
        observed := v.trustedCheckpoints r.payload ++ r.observed
        renewals := (now, new) :: r.renewals } := by
      rw [Run.judge, if_pos hempty]
    rw [if_pos hempty] at hseen hlease
    rw [hrun]
    refine ⟨fun checkpoint => ?_, ?_, ?_, ?_, ?_⟩
    · simp only [hseen, List.mem_append, h.seen]
    · exact hlease
    · rintro renewal (_ | ⟨_, hmem⟩)
      · exact fun checkpoint hmem => List.mem_append_left _ (hnew checkpoint hmem).1
      · exact fun checkpoint hin => List.mem_append_right _ (h.within renewal hmem hin)
    · rintro renewal (_ | ⟨_, hmem⟩)
      · exact ⟨hempty, fun checkpoint hmem => mem_trustedCheckpoints (hnew checkpoint hmem).1⟩
      · exact h.checkpoints renewal hmem
    · refine List.pairwise_cons.mpr ⟨fun renewal hmem => ?_, h.once⟩
      exact fun checkpoint hleft hright => (hnew checkpoint hleft).2 (h.within renewal hmem hright)

/-! ### Equal completions -/

/-- The counter of the supervisor is never behind the equal completions. -/
structure Repeats (v : Supervisor) (r : Run φ) : Prop where
  count : 0 < r.equal → r.equal ≤ r.state.repeatCount ∧
    (∃ c, r.equalTo = some c ∧ r.state.lastLoopFingerprint = v.completionFingerprint r.files c) ∧
    (v.trustedProgress = true ∨ r.files = r.state.sampled)
  forced : v.config.loopRepeatLimit ≤ r.equal → r.state.forcedReason ≠ ""

theorem State.Leads.stays_forced {v : Supervisor} {files : Files} {now : ℚ} {s s' : State}
    (h : State.Leads v files now s s') (hforced : s.forcedReason ≠ "") : s'.forcedReason ≠ "" := by
  rcases h.forced with heq | hmem
  · rwa [heq]
  · intro heq
    rw [heq] at hmem
    exact absurd hmem (by decide)

namespace State

variable {v : Supervisor} {files : Files} {now : ℚ} {s : State} {e : AgentProgressEvent}

/-- Only a completion touches the counter. -/
theorem observe_count (h : e.kind ≠ "tool_completed") :
    SameCount s (s.observe v files now e) ∧ (s.observe v files now e).sampled = s.sampled := by
  obtain ⟨-, hsampled, -, -, hcount, hlast, -⟩ :=
    @observeSemantic_keeps v now ((s.heard now e).observeTool v files now e) (s.effective v e)
  have htool : SameCount s ((s.heard now e).observeTool v files now e) ∧
      ((s.heard now e).observeTool v files now e).sampled = s.sampled := by
    unfold observeTool
    split
    · exact ⟨⟨rfl, rfl⟩, rfl⟩
    · split
      · split <;> exact ⟨⟨rfl, rfl⟩, rfl⟩
      · split <;> exact ⟨⟨rfl, rfl⟩, rfl⟩
  exact ⟨htool.1.trans ⟨hcount, hlast⟩, hsampled.trans htool.2⟩

/-- A completion is counted by its inputs and its result. -/
theorem observe_counted (h : e.kind = "tool_completed") (hsync : v.trustedProgress = true ∨ files = s.sampled) :
    Counted v files (v.completionFingerprint files (s.context v e, e.fingerprint, e.detail)) s
      (s.observe v files now e) := by
  obtain ⟨-, hsampled, -, -, hcount, hlast, hforced⟩ :=
    @observeSemantic_keeps v now ((s.heard now e).observeTool v files now e) (s.effective v e)
  have hfingerprint : v.loopFingerprint (editState v files (s.effective v e).detail) (s.effective v e) =
      v.completionFingerprint files (s.context v e, e.fingerprint, e.detail) := by
    rw [effective_detail, effective, if_pos h, Supervisor.completionFingerprint]
    cases s.context v e <;> rfl
  have htool : (s.heard now e).observeTool v files now e =
      let t : State := { s.heard now e with
        lastToolActivity := now
        toolContext := s.toolContext.filter (·.1 ≠ v.toolKey e) }
      { t.observeLoop v files now (s.effective v e) with
        activeTools := (t.observeLoop v files now (s.effective v e)).activeTools.filter
          (· ≠ v.toolKey (s.effective v e)) } := by
    have hstarted : e.kind ≠ "tool_started" := by
      rw [h]
      decide
    have hprogress : e.kind ≠ "tool_progress" := by
      rw [h]
      decide
    rw [observeTool, if_neg hstarted, if_neg hprogress, if_pos h]
    rfl
  have hloop := @observeLoop_counted v files now { s.heard now e with
    lastToolActivity := now
    toolContext := s.toolContext.filter (·.1 ≠ v.toolKey e) } (s.effective v e) hsync
  rw [hfingerprint] at hloop
  rw [htool] at hcount hlast hforced hsampled
  rw [observe_eq, htool]
  exact ⟨hcount.trans hloop.count, hlast.trans hloop.last, fun hlimit => hforced.trans (hloop.forced (hcount ▸ hlimit)),
    hloop.synced.imp_right fun hsynced => hsynced.trans hsampled.symm⟩

end State

theorem Repeats.event {v : Supervisor} {r : Run φ} (h : Repeats v r) {event : ℚ × AgentProgressEvent}
    (hsync : event.2.kind = "tool_completed" → v.trustedProgress = true ∨ r.files = r.state.sampled) :
    Repeats v (r.event v event) := by
  obtain ⟨t, e⟩ := event
  have hleads : State.Leads v r.files t r.state (r.state.observe v r.files t e) := State.observe_leads
  by_cases hcompleted : e.kind = "tool_completed"
  · have hcounted := @State.observe_counted v r.files t r.state e hcompleted (hsync hcompleted)
    have hequal : (r.event v (t, e)).equal = if r.equalTo = some (r.completion v e) then r.equal + 1 else 1 := if_pos hcompleted
    have hequalTo : (r.event v (t, e)).equalTo = some (r.completion v e) := if_pos hcompleted
    have hle : (r.event v (t, e)).equal ≤ (r.state.observe v r.files t e).repeatCount := by
      rw [hequal, hcounted.count]
      by_cases hsame : r.equalTo = some (r.completion v e)
      · rw [if_pos hsame]
        by_cases hpos : 0 < r.equal
        · obtain ⟨hcount, ⟨c, hc, hlast⟩, -⟩ := h.count hpos
          have heq : r.completion v e = c := Option.some.inj (hsame.symm.trans hc)
          have hfingerprint : v.completionFingerprint r.files (r.state.context v e, e.fingerprint, e.detail) =
              r.state.lastLoopFingerprint := by
            rw [hlast, ← heq]
            rfl
          rw [if_pos hfingerprint]
          omega
        · split <;> omega
      · rw [if_neg hsame]
        split <;> omega
    refine ⟨fun _ => ⟨hle, ⟨r.completion v e, hequalTo, hcounted.last⟩, hcounted.synced⟩, fun hlimit => ?_⟩
    have hforced : (r.event v (t, e)).state.forcedReason = "loop_detected" := hcounted.forced (hlimit.trans hle)
    rw [hforced]
    decide
  · obtain ⟨⟨hcount, hlast⟩, hsampled⟩ := @State.observe_count v r.files t r.state e hcompleted
    have hequal : (r.event v (t, e)).equal = r.equal := if_neg hcompleted
    have hequalTo : (r.event v (t, e)).equalTo = r.equalTo := if_neg hcompleted
    refine ⟨fun hpos => ?_, fun hlimit => ?_⟩
    · rw [hequal] at hpos
      obtain ⟨hle, ⟨c, hc, hfingerprint⟩, hsynced⟩ := h.count hpos
      rw [hequal, hequalTo]
      exact ⟨hle.trans hcount.ge, ⟨c, hc, hlast.trans hfingerprint⟩, hsynced.imp_right fun heq => heq.trans hsampled.symm⟩
    · rw [hequal] at hlimit
      exact hleads.stays_forced (h.forced hlimit)

theorem Repeats.events {v : Supervisor} {events : List (ℚ × AgentProgressEvent)} {r : Run φ} (h : Repeats v r)
    (hsync : v.trustedProgress = true ∨ r.files = r.state.sampled ∨ ∀ event ∈ events, event.2.kind ≠ "tool_completed") :
    Repeats v (r.events v events) := by
  induction events generalizing r with
  | nil => exact h
  | cons event events ih =>
    have hleads : State.Leads v r.files event.1 r.state (r.event v event).state := State.observe_leads
    refine ih (h.event fun hcompleted => ?_) (hsync.imp_right fun hrest => ?_)
    · rcases hsync with htrusted | hsynced | hnone
      · exact .inl htrusted
      · exact .inr hsynced
      · exact absurd hcompleted (hnone event List.mem_cons_self)
    · rcases hrest with hsynced | hnone
      · exact .inl (hleads.synced hsynced)
      · exact .inr fun event' hmem => hnone event' (List.mem_cons_of_mem _ hmem)

theorem Repeats.judge {v : Supervisor} {r : Run φ} (h : Repeats v r) (now : ℚ) (failed : Bool) (snapshot : Snapshot) :
    Repeats v (r.judge v now failed snapshot) := by
  have hleads : State.Leads v r.files now r.state (r.state.afterDecoder v r.files r.payload now failed snapshot) :=
    State.afterDecoder_leads
  refine ⟨fun hpos => ?_, fun hlimit => hleads.stays_forced (h.forced hlimit)⟩
  obtain ⟨hle, ⟨c, hc, hfingerprint⟩, hsynced⟩ := h.count hpos
  obtain ⟨hcount, hlast⟩ := @State.afterDecoder_count φ v r.files now r.state r.payload failed snapshot hsynced
  exact ⟨hle.trans hcount.ge, ⟨c, hc, hlast.trans hfingerprint⟩, hsynced.imp_right hleads.synced⟩

/-! ### Whole runs -/

/-- What a poll has answered last, judged by what has really happened. -/
def Answered (v : Supervisor) (r : Run φ) : Prop :=
  v.trustedProgress = false → r.answer = some "semantic_stall" →
    r.state.activeTools = [] ∧ (v.effectiveProgressLeaseSeconds : ℚ) ≤ r.asked - r.newAt ∧
      (v.effectiveProgressLeaseSeconds : ℚ) ≤ r.asked - r.changedAt

structure Inv (v : Supervisor) (r : Run φ) : Prop where
  tools : Tools r
  leased : Leased v r
  proven : v.trustedProgress = true → Proven v r
  repeats : Repeats v r
  answered : Answered v r

theorem Run.events_rest (v : Supervisor) (r : Run φ) (events : List (ℚ × AgentProgressEvent)) :
    (r.events v events).changedAt = r.changedAt ∧ (r.events v events).answer = r.answer := by
  induction events generalizing r with
  | nil => exact ⟨rfl, rfl⟩
  | cons event events ih => exact ih (r.event v event)

/-- Events alone answer nothing. -/
theorem Inv.events {v : Supervisor} {r : Run φ} (h : Inv v r) (hanswer : r.answer = none)
    {events : List (ℚ × AgentProgressEvent)} (hids : OwnIds r.started r.completed events) (hnow : ∀ event ∈ events, r.asked ≤ event.1)
    (hsync : v.trustedProgress = true ∨ r.files = r.state.sampled ∨ ∀ event ∈ events, event.2.kind ≠ "tool_completed") :
    Inv v (r.events v events) where
  tools := h.tools.events hids
  leased := h.leased.events hnow
  proven htrusted := (h.proven htrusted).events htrusted events
  repeats := h.repeats.events hsync
  answered := by
    intro _ hstall
    rw [(r.events_rest v events).2, hanswer] at hstall
    cases hstall

/-- The lease has run out at a stall, for the last new event and for the last change. -/
theorem Inv.judge {v : Supervisor} {r : Run φ} (h : Inv v r) (failed : Bool) (snapshot : Snapshot)
    (hsync : v.trustedProgress = false → (r.judge v r.asked failed snapshot).answer = some "semantic_stall" →
      r.files = (r.judge v r.asked failed snapshot).state.sampled) :
    Inv v (r.judge v r.asked failed snapshot) where
  tools := h.tools.judge r.asked failed snapshot
  leased := h.leased.judge le_rfl failed snapshot
  proven htrusted := (h.proven htrusted).judge htrusted r.asked failed snapshot
  repeats := h.repeats.judge r.asked failed snapshot
  answered := by
    intro htrusted hstall
    have hleased : Leased v (r.judge v r.asked failed snapshot) := h.leased.judge le_rfl failed snapshot
    obtain ⟨hactive, hlease⟩ := State.reason_stall hleased.forced hstall
    have hnew := hleased.newLease htrusted
    have hchanged := hleased.changedLease htrusted (hsync htrusted hstall)
    have hasked : (r.judge v r.asked failed snapshot).asked = r.asked := rfl
    refine ⟨hactive.resolve_right (by simp [htrusted]), ?_, ?_⟩
    · rw [hasked]
      exact hlease.trans (sub_le_sub_left hnew _)
    · rw [hasked]
      exact hlease.trans (sub_le_sub_left hchanged _)

/-- The invariant of a run whose last input has been taken in, but not handled. -/
theorem Inv.ask {v : Supervisor} {r : Run φ} (h : Inv v r) {now : ℚ} (hnow : r.asked ≤ now) {s : State}
    (hactive : s.activeTools = r.state.activeTools) (hsemantic : s.seenSemanticFingerprints = r.state.seenSemanticFingerprints)
    (hverified : s.seenVerifiedCheckpoints = r.state.seenVerifiedCheckpoints) (hstarted : s.startedAt = r.state.startedAt)
    (hsampled : s.sampled = r.state.sampled) (hlease : s.lastSemanticProgress = r.state.lastSemanticProgress)
    (hcount : State.SameCount r.state s)
    (hforced : s.forcedReason = r.state.forcedReason ∨ s.forcedReason = "protocol_error") (payload : Option (Json φ)) :
    Inv v { r with asked := now, answer := none, state := s, payload := payload } where
  tools := by
    intro id
    change id ∈ s.activeTools ↔ _
    rw [hactive]
    exact h.tools id
  leased := by
    refine ⟨h.leased.changed.trans hnow, h.leased.new.trans hnow, ?_, fun htrusted => ?_, fun htrusted => ?_,
      fun htrusted hsync => ?_⟩
    · change s.forcedReason ≠ _
      rcases hforced with heq | heq
      · rw [heq]
        exact h.leased.forced
      · rw [heq]
        simp
    · change s.seenSemanticFingerprints ⊆ _
      rw [hsemantic]
      exact h.leased.seen htrusted
    · change _ ≤ s.lastSemanticProgress
      rw [hlease]
      exact h.leased.newLease htrusted
    · change _ ≤ s.lastSemanticProgress
      rw [hlease]
      exact h.leased.changedLease htrusted (hsync.trans hsampled)
  proven htrusted := by
    have hproven := h.proven htrusted
    refine ⟨fun checkpoint => ?_, ?_, hproven.within, hproven.checkpoints, hproven.once⟩
    · change checkpoint ∈ s.seenVerifiedCheckpoints ↔ _
      rw [hverified]
      exact hproven.seen checkpoint
    · change s.lastSemanticProgress = (r.renewals.head?.map Prod.fst).getD s.startedAt
      rw [hlease, hstarted]
      exact hproven.lease
  repeats := by
    refine ⟨fun hpos => ?_, fun hlimit => ?_⟩
    · obtain ⟨hle, ⟨c, hc, hfingerprint⟩, hsynced⟩ := h.repeats.count hpos
      exact ⟨hle.trans hcount.1.ge, ⟨c, hc, hcount.2.trans hfingerprint⟩, hsynced.imp_right fun heq => heq.trans hsampled.symm⟩
    · change s.forcedReason ≠ ""
      rcases hforced with heq | heq
      · rw [heq]
        exact h.repeats.forced hlimit
      · rw [heq]
        simp
  answered := by
    intro _ hstall
    cases hstall

/-- A probe that is due leaves the files sampled. -/
theorem State.afterDecoder_due {v : Supervisor} {files : Files} {payload : Option (Json φ)} {now : ℚ} {failed : Bool}
    {snapshot : Snapshot} {s : State} (h : v.trustedProgress = false)
    (hdue : workspacePollSeconds ≤ now - s.lastWorkspacePoll) :
    (s.afterDecoder v files payload now failed snapshot).sampled = files := by
  rw [State.afterDecoder_normal h]
  have hgrouped : State.Leads v files now s (s.grouped v now failed snapshot) := State.grouped_leads
  rcases hgrouped.probe with heq | hsynced
  · apply State.probeWorkspace_due
    rw [heq]
    exact hdue
  · exact ((State.probeWorkspace_leads (v := v)).synced hsynced.symm).symm

theorem Inv.poll {v : Supervisor} {r : Run φ} (h : Inv v r) {now : ℚ} {decoded : List (ℚ × AgentProgressEvent)}
    {failed : Bool} {snapshot : Snapshot} (horderly : Orderly v r (.poll now decoded failed snapshot))
    (htimely : Timely v r (.poll now decoded failed snapshot)) : Inv v (r.next v (.poll now decoded failed snapshot)) := by
  let before : Run φ := { r with asked := now, answer := none }
  let events := if v.decoder.isSome then decoded else []
  have hbefore : Inv v before := h.ask horderly.clock rfl rfl rfl rfl rfl rfl ⟨rfl, rfl⟩ (.inl rfl) r.payload
  have hevents : Inv v (before.events v events) := by
    refine hbefore.events rfl horderly.ids horderly.readings ?_
    rcases htimely with htrusted | hsynced | ⟨hnone, -⟩
    · exact .inl htrusted
    · exact .inr (.inl hsynced)
    · exact .inr (.inr hnone)
  obtain ⟨-, hfiles, -, hasked⟩ := before.events_state v events
  have hdecoded : State.Leads v r.files now r.state (before.events v events).state :=
    events_leads (r := before) horderly.readings
  have hpolled : State.Leads v (before.events v events).files now (before.events v events).state
      ((before.events v events).judge v now failed snapshot).state := State.afterDecoder_leads
  rw [hfiles] at hpolled
  have hjudged := hevents.judge failed snapshot
  rw [hasked] at hjudged
  refine hjudged fun htrusted hstall => ?_
  rw [hfiles]
  have hsampled : ∀ {s : State}, State.Leads v r.files now s ((before.events v events).judge v now failed snapshot).state →
      r.files = s.sampled → r.files = ((before.events v events).judge v now failed snapshot).state.sampled :=
    fun hleads hsync => hleads.synced hsync
  rcases htimely with hyes | hsynced | ⟨-, hdue | hwithin⟩
  · rw [htrusted] at hyes
    cases hyes
  · exact hsampled (hdecoded.trans hpolled) hsynced
  · rcases hdecoded.probe with hsame | hsynced
    · have hprobed := @State.afterDecoder_due φ v (before.events v events).files (before.events v events).payload now failed
        snapshot (before.events v events).state htrusted (by rw [hsame]; exact hdue)
      exact (hprobed.trans hfiles).symm
    · exact hsampled hpolled hsynced.symm
  · -- within the lease there is no stall
    have hforced := (hevents.leased.judge (hasked.le) failed snapshot).forced
    obtain ⟨-, hlease⟩ := State.reason_stall hforced hstall
    exfalso
    rcases (hdecoded.trans hpolled).lease with hsame | hlater
    · have hlease' : (v.effectiveProgressLeaseSeconds : ℚ) ≤ now - r.state.lastSemanticProgress := hsame ▸ hlease
      exact absurd hlease' (not_le.mpr hwithin)
    · have hpos := State.lease_pos v
      have hlease' : (v.effectiveProgressLeaseSeconds : ℚ) ≤
          now - ((before.events v events).judge v now failed snapshot).state.lastSemanticProgress := hlease
      linarith

theorem Inv.next {v : Supervisor} {r : Run φ} (h : Inv v r) {input : Input φ} (horderly : Orderly v r input)
    (htimely : Timely v r input) : Inv v (r.next v input) := by
  cases input with
  | change now files =>
    have hasked : Inv v { r with asked := now, answer := none } :=
      h.ask horderly.clock rfl rfl rfl rfl rfl rfl ⟨rfl, rfl⟩ (.inl rfl) r.payload
    by_cases hsame : files = r.files
    · rw [Run.next, if_pos hsame]
      exact hasked
    · rw [Run.next, if_neg hsame]
      refine ⟨hasked.tools, ?_, fun htrusted => ?_, ?_, ?_⟩
      · refine ⟨le_rfl, hasked.leased.new, hasked.leased.forced, hasked.leased.seen, hasked.leased.newLease, ?_⟩
        intro htrusted hsync
        rcases htimely with hyes | hother | hvisible
        · rw [htrusted] at hyes
          cases hyes
        · exact absurd hother hsame
        · exact absurd hsync hvisible
      · obtain ⟨hseen, hlease, hwithin, hcheckpoints, honce⟩ := hasked.proven htrusted
        exact ⟨hseen, hlease, hwithin, hcheckpoints, honce⟩
      · refine ⟨fun hpos => absurd hpos (Nat.lt_irrefl 0), fun hlimit => ?_⟩
        have hrepeats := v.config.repeats
        have hzero : v.config.loopRepeatLimit ≤ 0 := hlimit
        omega
      · intro _ hstall
        cases hstall
  | evidence now payload =>
    exact h.ask horderly.clock rfl rfl rfl rfl rfl rfl ⟨rfl, rfl⟩ (.inl rfl) payload
  | events now given =>
    have hasked : Inv v { r with asked := now, answer := none } :=
      h.ask horderly.clock rfl rfl rfl rfl rfl rfl ⟨rfl, rfl⟩ (.inl rfl) r.payload
    exact hasked.events rfl horderly.ids horderly.readings htimely
  | io now chunk fed =>
    have hheard : ∀ (reason : String) (hreason : reason = r.state.forcedReason ∨ reason = "protocol_error"),
        Inv v { r with
          asked := now, answer := none,
          state := { (if chunk ≠ "" then { r.state with lastProviderActivity := now } else r.state) with
            forcedReason := reason } } := by
      intro reason hreason
      by_cases hchunk : chunk ≠ ""
      · rw [if_pos hchunk]
        exact h.ask (s := { r.state with lastProviderActivity := now, forcedReason := reason }) horderly.clock
          rfl rfl rfl rfl rfl rfl ⟨rfl, rfl⟩ hreason r.payload
      · rw [if_neg hchunk]
        exact h.ask (s := { r.state with forcedReason := reason }) horderly.clock
          rfl rfl rfl rfl rfl rfl ⟨rfl, rfl⟩ hreason r.payload
    have hkept : Inv v { r with
        asked := now, answer := none,
        state := if chunk ≠ "" then { r.state with lastProviderActivity := now } else r.state } := by
      have hsame := hheard r.state.forcedReason (.inl rfl)
      by_cases hchunk : chunk ≠ ""
      · rw [if_pos hchunk] at hsame ⊢
        exact hsame
      · rw [if_neg hchunk] at hsame ⊢
        exact hsame
    simp only [Run.next]
    by_cases hdecoder : v.decoder.isSome = true
    · simp only [if_pos hdecoder]
      have hhandled : (Input.io now chunk fed : Input φ).handled v = fed.getD [] := if_pos hdecoder
      have hids := horderly.ids
      have hreadings := horderly.readings
      rw [hhandled] at hids hreadings
      cases fed with
      | none => exact hheard "protocol_error" (.inr rfl)
      | some given =>
        refine hkept.events rfl hids hreadings (htimely.imp_right fun hrest => ?_)
        rw [hhandled] at hrest
        have hsampled : (if chunk ≠ "" then { r.state with lastProviderActivity := now } else r.state).sampled =
            r.state.sampled := by
          split <;> rfl
        exact hrest.imp_left fun hsync => hsync.trans hsampled.symm
    · simp only [if_neg hdecoder]
      exact hkept
  | poll now decoded failed snapshot => exact h.poll horderly htimely

theorem Inv.start (v : Supervisor) (now : ℚ) (files : Files) (payload : Option (Json φ)) :
    Inv v (Run.start v now files payload) where
  tools := by
    intro id
    simp [Run.start, State.start]
  leased := by
    refine ⟨le_rfl, le_rfl, ?_, fun _ => List.nil_subset _, fun _ => le_rfl, fun _ _ => le_rfl⟩
    simp [Run.start, State.start]
  proven htrusted := by
    refine ⟨fun checkpoint => ?_, rfl, nofun, nofun, List.Pairwise.nil⟩
    simp [Run.start, State.start, htrusted]
  repeats := by
    refine ⟨fun hpos => absurd hpos (Nat.lt_irrefl 0), fun hlimit => ?_⟩
    have hrepeats := v.config.repeats
    have hzero : v.config.loopRepeatLimit ≤ 0 := hlimit
    omega
  answered := by
    intro _ hstall
    cases hstall

theorem Inv.earned {v : Supervisor} {r : Run φ} (h : Inv v r) : Supervised v r where
  tools := h.tools
  stall htrusted hstall := by
    obtain ⟨hactive, hlease⟩ := h.answered htrusted hstall
    refine ⟨fun id hstarted => ?_, hlease⟩
    by_contra hnot
    have hmem := (h.tools id).mpr ⟨hstarted, hnot⟩
    rw [hactive] at hmem
    cases hmem
  lease htrusted := (h.proven htrusted).lease
  checkpoints htrusted := (h.proven htrusted).checkpoints
  once htrusted := (h.proven htrusted).once
  loop := by
    intro hlimit files payload now decoded failed snapshot
    have hforced := h.repeats.forced hlimit
    have hevents : ∀ (events : List (ℚ × AgentProgressEvent)) (s : State), s.forcedReason ≠ "" →
        (s.observeEvents v files events).forcedReason ≠ "" := by
      intro events
      induction events with
      | nil => exact fun _ hs => hs
      | cons event events ih =>
        intro s hs
        have hone : State.Leads v files event.1 s (s.observe v files event.1 event.2) := State.observe_leads
        exact ih _ (hone.stays_forced hs)
    have hdecoded : (if v.decoder.isSome then r.state.observeEvents v files decoded else r.state).forcedReason ≠ "" := by
      split
      · exact hevents decoded r.state hforced
      · exact hforced
    have hpolled : ∀ s : State, s.forcedReason ≠ "" →
        (s.afterDecoder v files payload now failed snapshot).forcedReason ≠ "" := by
      intro s hs
      have hleads : State.Leads v files now s (s.afterDecoder v files payload now failed snapshot) := State.afterDecoder_leads
      exact hleads.stays_forced hs
    rw [State.poll, State.reason_forced (hpolled _ hdecoded)]
    exact Option.some_ne_none _

/-- In every run in which each change of the files is sampled in time, the lease is renewed by real progress alone. -/
theorem lease_earned {v : Supervisor} {trace : List (Taken (Run φ) (Input φ))} {r : Run φ}
    (hrun : (system φ v).Run trace r) (hmeets : Meets (fun r input _ => Orderly v r input ∧ Timely v r input) trace) :
    Supervised v r := by
  refine Inv.earned (hrun.invariant_of_meets (I := Inv v) ?_ ?_ hmeets)
  · rintro _ ⟨now, files, payload, rfl⟩
    exact Inv.start v now files payload
  · rintro r input _ hinv ⟨horderly, htimely⟩ rfl
    exact hinv.next horderly htimely

/-- An attempt with a lease of one minute, whose decoder asks for no protocol. -/
def minuteLease : Supervisor where
  config := { semanticStallSeconds := 60 }
  request := { stage := "implement" }
  decoder := none
  digest := id
  lower := id

def startedFiles : Run Empty := Run.start minuteLease 100 ⟨"before", ""⟩ none

def probedFiles : Run Empty := startedFiles.next minuteLease (.poll 150 [] false [])

/-- The probe has sampled the files at 150, and they change at 159. -/
def changedFiles : Run Empty := probedFiles.next minuteLease (.change 159 ⟨"after", ""⟩)

def changedTrace : List (Taken (Run Empty) (Input Empty)) :=
  [⟨startedFiles, .poll 150 [] false [], probedFiles⟩, ⟨probedFiles, .change 159 ⟨"after", ""⟩, changedFiles⟩]

theorem changedFiles_run : (system Empty minuteLease).Run changedTrace changedFiles := by
  have hstarted : (system Empty minuteLease).Run [] startedFiles := .start ⟨100, ⟨"before", ""⟩, none, rfl⟩
  have hpoll : (system Empty minuteLease).step startedFiles (.poll 150 [] false []) probedFiles := rfl
  have hchange : (system Empty minuteLease).step probedFiles (.change 159 ⟨"after", ""⟩) changedFiles := rfl
  exact (hstarted.step hpoll).step hchange

theorem changedFiles_meets :
    Meets (fun r input _ => Orderly minuteLease r input ∧ Timely minuteLease r input) changedTrace := by
  intro e he
  simp only [changedTrace, List.mem_cons, List.not_mem_nil, or_false] at he
  rcases he with rfl | rfl
  · exact ⟨⟨by decide +kernel, nofun, trivial⟩, .inr (.inl rfl)⟩
  · exact ⟨⟨by decide +kernel, nofun, trivial⟩, .inr (.inr (by decide +kernel))⟩

/-- A poll ten seconds after the last probe answers a stall, one second after a change. -/
theorem unsampled_change_stalls :
    ¬ ∀ (trace : List (Taken (Run Empty) (Input Empty))) (r : Run Empty), (system Empty minuteLease).Run trace r →
      Meets (fun r input _ => Orderly minuteLease r input) trace → Supervised minuteLease r := by
  intro h
  have hmeets : Meets (fun r input _ => Orderly minuteLease r input)
      (changedTrace ++ [⟨changedFiles, .poll 160 [] false [], changedFiles.next minuteLease (.poll 160 [] false [])⟩]) := by
    intro e he
    rcases List.mem_append.mp he with hold | hnew
    · exact (changedFiles_meets e hold).1
    · obtain rfl := List.mem_singleton.mp hnew
      exact ⟨by decide +kernel, nofun, trivial⟩
  have hsupervised := h _ _ (changedFiles_run.step rfl) hmeets
  obtain ⟨-, -, hlease⟩ := hsupervised.stall rfl (by decide +kernel)
  exact absurd hlease (by decide +kernel)

/-- With the probe due, the same change keeps the attempt alive. -/
theorem lease_earned_sampled :
    Supervised minuteLease (changedFiles.next minuteLease (.poll 170 [] false [])) ∧
      (changedFiles.next minuteLease (.poll 170 [] false [])).answer = none := by
  refine ⟨lease_earned (changedFiles_run.step rfl) ?_, by decide +kernel⟩
  intro e he
  rcases List.mem_append.mp he with hold | hnew
  · exact changedFiles_meets e hold
  · obtain rfl := List.mem_singleton.mp hnew
    exact ⟨⟨by decide +kernel, nofun, trivial⟩, .inr (.inr ⟨nofun, .inl (by decide +kernel)⟩)⟩

end AutoAgents.Supervision
