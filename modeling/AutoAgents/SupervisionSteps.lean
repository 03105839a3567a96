import AutoAgents.Supervision

/-! What one operation of the supervisor leaves: how the lease and the sampled contents may change, what only a
completion or a checkpoint touches, and when a stall is answered. -/

namespace AutoAgents.Supervision

open Base

variable {φ : Type}

/-! ### What one operation leaves -/

namespace State

/-- What only a tool event, a semantic event, a checkpoint or a probe touches. -/
structure Frame (s s' : State) : Prop where
  active : s'.activeTools = s.activeTools
  context : s'.toolContext = s.toolContext
  semantic : s'.seenSemanticFingerprints = s.seenSemanticFingerprints
  verified : s'.seenVerifiedCheckpoints = s.seenVerifiedCheckpoints
  started : s'.startedAt = s.startedAt

theorem Frame.trans {s s' s'' : State} (h : Frame s s') (h' : Frame s' s'') : Frame s s'' where
  active := h'.active.trans h.active
  context := h'.context.trans h.context
  semantic := h'.semantic.trans h.semantic
  verified := h'.verified.trans h.verified
  started := h'.started.trans h.started

theorem Frame.refl (s : State) : Frame s s := ⟨rfl, rfl, rfl, rfl, rfl⟩

/-- How the lease and the sampled contents may change from `now` on: outside trusted progress a changed sample
renews the lease. -/
structure Leads (v : Supervisor) (files : Files) (now : ℚ) (s s' : State) : Prop where
  sampled : s'.sampled = s.sampled ∨ s'.sampled = files
  lease : s'.lastSemanticProgress = s.lastSemanticProgress ∨ now ≤ s'.lastSemanticProgress
  renewed : v.trustedProgress = false → s'.sampled ≠ s.sampled → now ≤ s'.lastSemanticProgress
  probe : s'.lastWorkspacePoll = s.lastWorkspacePoll ∨ s'.sampled = files
  forced : s'.forcedReason = s.forcedReason ∨ s'.forcedReason ∈ ["protocol_error", "provider_error", "loop_detected"]

variable {v : Supervisor} {files : Files} {now : ℚ} {s s' s'' : State}

theorem Leads.refl (v : Supervisor) (files : Files) (now : ℚ) (s : State) : Leads v files now s s :=
  ⟨.inl rfl, .inl rfl, fun _ h => absurd rfl h, .inl rfl, .inl rfl⟩

theorem Leads.trans (h : Leads v files now s s') (h' : Leads v files now s' s'') : Leads v files now s s'' where
  sampled := by
    rcases h'.sampled with heq | heq
    · rw [heq]
      exact h.sampled
    · exact .inr heq
  lease := by
    rcases h'.lease with heq | hle
    · rw [heq]
      exact h.lease
    · exact .inr hle
  renewed := by
    intro htrusted hne
    by_cases hsame : s''.sampled = s'.sampled
    · have hle := h.renewed htrusted (hsame ▸ hne)
      rcases h'.lease with heq | hlater
      · rwa [heq]
      · exact hlater
    · exact h'.renewed htrusted hsame
  probe := by
    rcases h'.probe with heq | hfiles
    · rcases h.probe with heq' | hfiles'
      · exact .inl (heq.trans heq')
      · rcases h'.sampled with hsame | hfiles
        · exact .inr (hsame.trans hfiles')
        · exact .inr hfiles
    · exact .inr hfiles
  forced := by
    rcases h'.forced with heq | hmem
    · rw [heq]
      exact h.forced
    · exact .inr hmem

theorem Leads.mono {now' : ℚ} (h : Leads v files now s s') (hle : now' ≤ now) : Leads v files now' s s' :=
  ⟨h.sampled, h.lease.imp_right hle.trans, fun ht hne => hle.trans (h.renewed ht hne), h.probe, h.forced⟩

theorem Leads.synced (h : Leads v files now s s') (hsync : files = s.sampled) : files = s'.sampled := by
  rcases h.sampled with heq | heq
  · rw [heq, hsync]
  · exact heq.symm

/-! Sampling -/

theorem sampleWorkspace_frame : Frame s (s.sampleWorkspace v files now) := by
  unfold sampleWorkspace
  split
  · dsimp only
    split <;> exact ⟨rfl, rfl, rfl, rfl, rfl⟩
  · exact Frame.refl s

theorem sampled_sampleWorkspace : (s.sampleWorkspace v files now).sampled = files := by
  unfold sampleWorkspace
  split
  · dsimp only
    split <;> rfl
  · next hsame => exact (not_not.mp hsame).symm

theorem sampleWorkspace_synced (h : files = s.sampled) : s.sampleWorkspace v files now = s := by
  rw [sampleWorkspace, if_neg (not_not.mpr h)]

theorem forced_sampleWorkspace : (s.sampleWorkspace v files now).forcedReason = s.forcedReason := by
  unfold sampleWorkspace
  split
  · dsimp only
    split <;> rfl
  · rfl

/-- Sampling touches the counter outside trusted progress, and there at a change only. -/
theorem count_sampleWorkspace (h : v.trustedProgress = true ∨ files = s.sampled) :
    (s.sampleWorkspace v files now).repeatCount = s.repeatCount ∧
      (s.sampleWorkspace v files now).lastLoopFingerprint = s.lastLoopFingerprint := by
  rcases h with htrusted | hsync
  · unfold sampleWorkspace
    split
    · simp
    · exact ⟨rfl, rfl⟩
  · rw [sampleWorkspace_synced hsync]
    exact ⟨rfl, rfl⟩

theorem lease_sampleWorkspace (h : v.trustedProgress = true) :
    (s.sampleWorkspace v files now).lastSemanticProgress = s.lastSemanticProgress := by
  unfold sampleWorkspace
  split
  · simp
  · rfl

theorem sampleWorkspace_leads : Leads v files now s (s.sampleWorkspace v files now) := by
  refine ⟨.inr sampled_sampleWorkspace, ?_, ?_, .inr sampled_sampleWorkspace, .inl forced_sampleWorkspace⟩
  · by_cases hsync : files = s.sampled
    · rw [sampleWorkspace_synced hsync]
      exact .inl rfl
    · by_cases htrusted : v.trustedProgress = true
      · exact .inl (lease_sampleWorkspace htrusted)
      · refine .inr (le_of_eq ?_)
        simp [sampleWorkspace, hsync, htrusted]
  · intro htrusted hne
    have hsync : ¬ files = s.sampled := fun hsync => hne (by rw [sampleWorkspace_synced hsync])
    refine le_of_eq ?_
    simp [sampleWorkspace, hsync, htrusted]

/-! The loop -/

variable {fingerprint : String} {e : AgentProgressEvent}

theorem countLoop_frame : Frame s (s.countLoop fingerprint) := by
  unfold countLoop
  split <;> exact ⟨rfl, rfl, rfl, rfl, rfl⟩

theorem countLoop_leads : Leads v files now s (s.countLoop fingerprint) := by
  unfold countLoop
  split <;> exact ⟨.inl rfl, .inl rfl, fun _ h => absurd rfl h, .inl rfl, .inl rfl⟩

theorem confirmLoop_frame : Frame s (s.confirmLoop v files now) := by
  unfold confirmLoop
  split
  · dsimp only
    split
    · have h : Frame s (s.sampleWorkspace v files now) := sampleWorkspace_frame
      exact ⟨h.active, h.context, h.semantic, h.verified, h.started⟩
    · exact sampleWorkspace_frame
  · exact Frame.refl s

theorem confirmLoop_leads : Leads v files now s (s.confirmLoop v files now) := by
  unfold confirmLoop
  split
  · dsimp only
    split
    · have h : Leads v files now s (s.sampleWorkspace v files now) := sampleWorkspace_leads
      exact ⟨h.sampled, h.lease, h.renewed, h.probe, .inr (by simp)⟩
    · exact sampleWorkspace_leads
  · exact Leads.refl v files now s

theorem observeLoop_frame : Frame s (s.observeLoop v files now e) := by
  unfold observeLoop
  split
  · split
    · exact sampleWorkspace_frame.trans (countLoop_frame.trans confirmLoop_frame)
    · exact countLoop_frame.trans confirmLoop_frame
  · exact countLoop_frame.trans confirmLoop_frame

theorem observeLoop_leads : Leads v files now s (s.observeLoop v files now e) := by
  unfold observeLoop
  split
  · split
    · exact sampleWorkspace_leads.trans (countLoop_leads.trans confirmLoop_leads)
    · exact countLoop_leads.trans confirmLoop_leads
  · exact countLoop_leads.trans confirmLoop_leads

/-- What stands for the workspace in the fingerprint of a completion. -/
def editState (v : Supervisor) (files : Files) (detail : String) : String :=
  if v.trustedProgress = true then if detail = "file_change" then files.workspace else "" else files.workspace

/-- A count as it stands behind one more completion, and what it forces. -/
structure Counted (v : Supervisor) (files : Files) (fingerprint : String) (s s' : State) : Prop where
  count : s'.repeatCount = if fingerprint = s.lastLoopFingerprint then s.repeatCount + 1 else 1
  last : s'.lastLoopFingerprint = fingerprint
  forced : v.config.loopRepeatLimit ≤ s'.repeatCount → s'.forcedReason = "loop_detected"
  synced : v.trustedProgress = true ∨ files = s'.sampled

theorem confirmLoop_counted (h : v.trustedProgress = true ∨ files = s.sampled) :
    Counted v files fingerprint s ((s.countLoop fingerprint).confirmLoop v files now) := by
  have hcount : (s.countLoop fingerprint).repeatCount =
      if fingerprint = s.lastLoopFingerprint then s.repeatCount + 1 else 1 := by
    unfold countLoop
    split <;> rfl
  have hlast : (s.countLoop fingerprint).lastLoopFingerprint = fingerprint := by
    unfold countLoop
    split
    · next heq => exact heq.symm
    · rfl
  have hsync : v.trustedProgress = true ∨ files = (s.countLoop fingerprint).sampled := by
    have hleads : Leads v files now s (s.countLoop fingerprint) := countLoop_leads
    exact h.imp_right hleads.synced
  generalize s.countLoop fingerprint = t at hcount hlast hsync ⊢
  obtain ⟨hkeeps, hkeeps'⟩ := @count_sampleWorkspace v files now t hsync
  unfold confirmLoop
  split
  · next hlimit =>
    simp only [hkeeps, hlimit, if_true]
    exact ⟨hcount, hkeeps'.trans hlast, fun _ => rfl, .inr sampled_sampleWorkspace.symm⟩
  · next hlimit => exact ⟨hcount, hlast, fun h => absurd h hlimit, hsync⟩

theorem observeLoop_counted (h : v.trustedProgress = true ∨ files = s.sampled) :
    Counted v files (v.loopFingerprint (editState v files e.detail) e) s (s.observeLoop v files now e) := by
  unfold observeLoop editState
  split
  · next htrusted =>
    split
    · obtain ⟨hkeeps, hkeeps'⟩ := @count_sampleWorkspace v files now s h
      have hworkspace : (s.sampleWorkspace v files now).workspaceFingerprint = files.workspace :=
        congrArg Files.workspace (@sampled_sampleWorkspace v files now s)
      have hcounted := @confirmLoop_counted v files now (s.sampleWorkspace v files now)
        (v.loopFingerprint files.workspace e) (.inl htrusted)
      dsimp only
      rw [hworkspace]
      exact ⟨by rw [hcounted.count, hkeeps, hkeeps'], hcounted.last, hcounted.forced, hcounted.synced⟩
    · exact confirmLoop_counted h
  · next htrusted =>
    have hsync := h.resolve_left htrusted
    have hworkspace : s.workspaceFingerprint = files.workspace := congrArg Files.workspace hsync.symm
    rw [hworkspace]
    exact confirmLoop_counted h

/-! One event -/

@[simp] theorem effective_toolId : (s.effective v e).toolId = e.toolId := by
  unfold effective
  split
  · split <;> rfl
  · rfl

@[simp] theorem effective_detail : (s.effective v e).detail = e.detail := by
  unfold effective
  split
  · split <;> rfl
  · rfl

@[simp] theorem effective_semantic : (s.effective v e).semantic = e.semantic := by
  unfold effective
  split
  · split <;> rfl
  · rfl

theorem toolKey_of_id (h : e.toolId ≠ "") : v.toolKey e = e.toolId := if_pos h

/-- With its own id, a tool stands in the table from its start to its completion. -/
theorem mem_observeTool {id : String} (hid : e.kind = "tool_started" ∨ e.kind = "tool_completed" → e.toolId ≠ "") :
    id ∈ (s.observeTool v files now e).activeTools ↔
      if e.kind = "tool_started" then id ∈ s.activeTools ∨ id = e.toolId
      else if e.kind = "tool_completed" then id ∈ s.activeTools ∧ id ≠ e.toolId
      else id ∈ s.activeTools := by
  unfold observeTool
  by_cases hstarted : e.kind = "tool_started"
  · rw [if_pos hstarted, if_pos hstarted, toolKey_of_id (hid (.inl hstarted))]
    by_cases hmem : e.toolId ∈ s.activeTools
    · simp only [if_pos hmem]
      constructor
      · exact .inl
      · rintro (h | rfl)
        · exact h
        · exact hmem
    · simp [hmem]
  · rw [if_neg hstarted, if_neg hstarted]
    by_cases hprogress : e.kind = "tool_progress"
    · have hcompleted : e.kind ≠ "tool_completed" := by
        rw [hprogress]
        decide
      rw [if_pos hprogress, if_neg hcompleted]
      split <;> rfl
    · rw [if_neg hprogress]
      by_cases hcompleted : e.kind = "tool_completed"
      · have hkey : v.toolKey (s.effective v e) = e.toolId := by
          rw [toolKey_of_id] <;> rw [effective_toolId]
          exact hid (.inr hcompleted)
        rw [if_pos hcompleted, if_pos hcompleted]
        simp only [effective, context] at hkey
        simp only [effective, context, hkey, List.mem_filter, decide_eq_true_eq]
        rw [(observeLoop_frame (v := v)).active]
      · rw [if_neg hcompleted, if_neg hcompleted]
        split <;> rfl

/-- What a tool event keeps apart from the table. -/
theorem observeTool_keeps : (s.observeTool v files now e).seenSemanticFingerprints = s.seenSemanticFingerprints ∧
    (s.observeTool v files now e).seenVerifiedCheckpoints = s.seenVerifiedCheckpoints ∧
    (s.observeTool v files now e).startedAt = s.startedAt := by
  unfold observeTool
  split
  · exact ⟨rfl, rfl, rfl⟩
  · split
    · split <;> exact ⟨rfl, rfl, rfl⟩
    · split
      · exact ⟨(observeLoop_frame (v := v)).semantic, (observeLoop_frame (v := v)).verified,
          (observeLoop_frame (v := v)).started⟩
      · split <;> exact ⟨rfl, rfl, rfl⟩

/-- A step that touches neither the lease nor the sample. -/
theorem Leads.of_eq (hsampled : s'.sampled = s.sampled) (hlease : s'.lastSemanticProgress = s.lastSemanticProgress)
    (hprobe : s'.lastWorkspacePoll = s.lastWorkspacePoll) (hforced : s'.forcedReason = s.forcedReason) :
    Leads v files now s s' :=
  ⟨.inl hsampled, .inl hlease, fun _ hne => absurd hsampled hne, .inl hprobe, .inl hforced⟩

theorem observeTool_leads : Leads v files now s (s.observeTool v files now e) := by
  unfold observeTool
  split
  · exact Leads.of_eq rfl rfl rfl rfl
  · split
    · split <;> exact Leads.of_eq rfl rfl rfl rfl
    · split
      · let t : State := { s with lastToolActivity := now, toolContext := s.toolContext.filter (·.1 ≠ v.toolKey e) }
        have hbefore : Leads v files now s t := Leads.of_eq rfl rfl rfl rfl
        have hloop : Leads v files now t (t.observeLoop v files now (s.effective v e)) := observeLoop_leads
        exact (hbefore.trans hloop).trans (Leads.of_eq rfl rfl rfl rfl)
      · split
        · exact ⟨.inl rfl, .inl rfl, fun _ hne => absurd rfl hne, .inl rfl, .inr (by simp)⟩
        · exact Leads.refl v files now s

theorem observeSemantic_leads : Leads v files now s (s.observeSemantic v now e) := by
  unfold observeSemantic
  split
  · exact ⟨.inl rfl, .inr le_rfl, fun _ _ => le_rfl, .inl rfl, .inl rfl⟩
  · exact Leads.refl v files now s

theorem observe_leads : Leads v files now s (s.observe v files now e) := by
  have hbefore : ∀ (a b : ℚ) (c : Bool) (d : String), Leads v files now s
      { s with protocolSeen := c, lastProviderActivity := a, sessionId := d } :=
    fun _ _ _ _ => Leads.of_eq rfl rfl rfl rfl
  exact ((hbefore now now true _).trans observeTool_leads).trans observeSemantic_leads

/-! One poll -/

variable {payload : Option (Json φ)} {failed : Bool} {snapshot : Snapshot}

/-- The counter stays as it is. -/
def SameCount (s s' : State) : Prop :=
  s'.repeatCount = s.repeatCount ∧ s'.lastLoopFingerprint = s.lastLoopFingerprint

theorem SameCount.trans (h : SameCount s s') (h' : SameCount s' s'') : SameCount s s'' :=
  ⟨h'.1.trans h.1, h'.2.trans h.2⟩

theorem sampleProcessGroup_frame : Frame s (s.sampleProcessGroup now snapshot) := by
  unfold sampleProcessGroup
  split
  · exact Frame.refl s
  · dsimp only
    split <;> exact ⟨rfl, rfl, rfl, rfl, rfl⟩

theorem sampleProcessGroup_leads : Leads v files now s (s.sampleProcessGroup now snapshot) := by
  unfold sampleProcessGroup
  split
  · exact Leads.refl v files now s
  · dsimp only
    split <;> exact Leads.of_eq rfl rfl rfl rfl

theorem sampleProcessGroup_count : SameCount s (s.sampleProcessGroup now snapshot) ∧
    (s.sampleProcessGroup now snapshot).lastSemanticProgress = s.lastSemanticProgress := by
  unfold sampleProcessGroup
  split
  · exact ⟨⟨rfl, rfl⟩, rfl⟩
  · dsimp only
    split <;> exact ⟨⟨rfl, rfl⟩, rfl⟩

theorem verifyCheckpoints_leads {checkpoints : List String} : Leads v files now s (s.verifyCheckpoints now checkpoints) := by
  unfold verifyCheckpoints
  split
  · exact ⟨.inl rfl, .inr le_rfl, fun _ _ => le_rfl, .inl rfl, .inl rfl⟩
  · exact Leads.refl v files now s

theorem probeWorkspace_frame : Frame s (s.probeWorkspace v files now) := by
  unfold probeWorkspace
  split
  · have h : Frame { s with lastWorkspacePoll := now } _ := @sampleWorkspace_frame v files now _
    exact ⟨h.active, h.context, h.semantic, h.verified, h.started⟩
  · exact Frame.refl s

theorem probeWorkspace_leads : Leads v files now s (s.probeWorkspace v files now) := by
  unfold probeWorkspace
  split
  · have h : Leads v files now { s with lastWorkspacePoll := now } _ := sampleWorkspace_leads
    exact ⟨h.sampled, h.lease, h.renewed, .inr sampled_sampleWorkspace, h.forced⟩
  · exact Leads.refl v files now s

theorem probeWorkspace_count (h : v.trustedProgress = true ∨ files = s.sampled) :
    SameCount s (s.probeWorkspace v files now) := by
  unfold probeWorkspace
  split
  · exact count_sampleWorkspace (s := { s with lastWorkspacePoll := now }) h
  · exact ⟨rfl, rfl⟩

/-- A probe that is due samples. -/
theorem probeWorkspace_due (h : workspacePollSeconds ≤ now - s.lastWorkspacePoll) :
    (s.probeWorkspace v files now).sampled = files := by
  rw [probeWorkspace, if_pos h]
  exact sampled_sampleWorkspace

/-- The state in which a poll looks at the checkpoints. -/
def grouped (v : Supervisor) (now : ℚ) (failed : Bool) (snapshot : Snapshot) (s : State) : State :=
  (if v.decoder.isSome && failed then { s with forcedReason := "protocol_error" } else s).sampleProcessGroup now snapshot

theorem grouped_frame : Frame s (s.grouped v now failed snapshot) := by
  unfold grouped
  split
  · have h : Frame { s with forcedReason := "protocol_error" }
        (State.sampleProcessGroup now snapshot { s with forcedReason := "protocol_error" }) := sampleProcessGroup_frame
    exact ⟨h.active, h.context, h.semantic, h.verified, h.started⟩
  · exact sampleProcessGroup_frame

theorem grouped_leads : Leads v files now s (s.grouped v now failed snapshot) := by
  unfold grouped
  split
  · refine Leads.trans ?_ sampleProcessGroup_leads
    exact ⟨.inl rfl, .inl rfl, fun _ h => absurd rfl h, .inl rfl, .inr (by simp)⟩
  · exact sampleProcessGroup_leads

theorem grouped_count : SameCount s (s.grouped v now failed snapshot) ∧
    (s.grouped v now failed snapshot).lastSemanticProgress = s.lastSemanticProgress := by
  unfold grouped
  split
  · exact sampleProcessGroup_count (s := { s with forcedReason := "protocol_error" })
  · exact sampleProcessGroup_count

theorem afterDecoder_normal (h : v.trustedProgress = false) :
    s.afterDecoder v files payload now failed snapshot = (s.grouped v now failed snapshot).probeWorkspace v files now := by
  rw [afterDecoder, h]
  rfl

theorem afterDecoder_trusted (h : v.trustedProgress = true) :
    s.afterDecoder v files payload now failed snapshot =
      ((s.grouped v now failed snapshot).verifyCheckpoints now (v.trustedCheckpoints payload)).probeWorkspace v files now := by
  rw [afterDecoder, h]
  rfl

theorem afterDecoder_leads : Leads v files now s (s.afterDecoder v files payload now failed snapshot) := by
  cases h : v.trustedProgress
  · rw [afterDecoder_normal h]
    exact grouped_leads.trans probeWorkspace_leads
  · rw [afterDecoder_trusted h]
    exact grouped_leads.trans (verifyCheckpoints_leads.trans probeWorkspace_leads)

theorem afterDecoder_active :
    (s.afterDecoder v files payload now failed snapshot).activeTools = s.activeTools ∧
      (s.afterDecoder v files payload now failed snapshot).seenSemanticFingerprints = s.seenSemanticFingerprints ∧
      (s.afterDecoder v files payload now failed snapshot).startedAt = s.startedAt := by
  have hgrouped : Frame s (s.grouped v now failed snapshot) := grouped_frame
  cases h : v.trustedProgress
  · rw [afterDecoder_normal h]
    have hframe := hgrouped.trans (@probeWorkspace_frame v files now (s.grouped v now failed snapshot))
    exact ⟨hframe.active, hframe.semantic, hframe.started⟩
  · rw [afterDecoder_trusted h]
    have hprobe := @probeWorkspace_frame v files now
      ((s.grouped v now failed snapshot).verifyCheckpoints now (v.trustedCheckpoints payload))
    unfold verifyCheckpoints at hprobe ⊢
    split at hprobe
    · next hnew =>
      rw [if_pos hnew]
      exact ⟨hprobe.active.trans hgrouped.active, hprobe.semantic.trans hgrouped.semantic,
        hprobe.started.trans hgrouped.started⟩
    · next hnew =>
      rw [if_neg hnew]
      exact ⟨hprobe.active.trans hgrouped.active, hprobe.semantic.trans hgrouped.semantic,
        hprobe.started.trans hgrouped.started⟩

theorem afterDecoder_count (h : v.trustedProgress = true ∨ files = s.sampled) :
    SameCount s (s.afterDecoder v files payload now failed snapshot) := by
  have hgrouped : SameCount s (s.grouped v now failed snapshot) := grouped_count.1
  cases htrusted : v.trustedProgress
  · rw [afterDecoder_normal htrusted]
    have hsync := h.resolve_left (by simp [htrusted])
    have hleads : Leads v files now s (s.grouped v now failed snapshot) := grouped_leads
    exact hgrouped.trans (probeWorkspace_count (.inr (hleads.synced hsync)))
  · rw [afterDecoder_trusted htrusted]
    refine hgrouped.trans (SameCount.trans ?_ (probeWorkspace_count (.inl htrusted)))
    unfold verifyCheckpoints
    split <;> exact ⟨rfl, rfl⟩

/-- Under trusted progress a poll renews the lease at new checkpoints alone. -/
theorem afterDecoder_verified (h : v.trustedProgress = true) :
    let new := (v.trustedCheckpoints payload).filter (· ∉ s.seenVerifiedCheckpoints)
    (s.afterDecoder v files payload now failed snapshot).seenVerifiedCheckpoints =
        (if new ≠ [] then v.trustedCheckpoints payload ++ s.seenVerifiedCheckpoints else s.seenVerifiedCheckpoints) ∧
      (s.afterDecoder v files payload now failed snapshot).lastSemanticProgress =
        if new ≠ [] then now else s.lastSemanticProgress := by
  intro new
  have hseen : (s.grouped v now failed snapshot).seenVerifiedCheckpoints = s.seenVerifiedCheckpoints := grouped_frame.verified
  have hlease : (s.grouped v now failed snapshot).lastSemanticProgress = s.lastSemanticProgress := grouped_count.2
  rw [afterDecoder_trusted h]
  generalize s.grouped v now failed snapshot = t at hseen hlease ⊢
  have hprobe : ∀ u : State, (u.probeWorkspace v files now).lastSemanticProgress = u.lastSemanticProgress := by
    intro u
    unfold probeWorkspace
    split
    · exact lease_sampleWorkspace h
    · rfl
  have hverified : ∀ u : State, (u.probeWorkspace v files now).seenVerifiedCheckpoints = u.seenVerifiedCheckpoints :=
    fun _ => probeWorkspace_frame.verified
  rw [hverified, hprobe]
  unfold verifyCheckpoints
  rw [hseen]
  split
  · exact ⟨rfl, rfl⟩
  · exact ⟨hseen, hlease⟩

/-- When a poll answers a stall. -/
theorem reason_stall (hforced : s.forcedReason ≠ "semantic_stall") (h : s.reason v now = some "semantic_stall") :
    (s.activeTools = [] ∨ v.trustedProgress = true) ∧
      (v.effectiveProgressLeaseSeconds : ℚ) ≤ now - s.lastSemanticProgress := by
  unfold reason at h
  split at h
  · exact absurd (Option.some.inj h) hforced
  · split at h
    · exact absurd (Option.some.inj h) (by decide)
    · split at h
      · exact absurd (Option.some.inj h) (by decide)
      · split at h
        · exact absurd (Option.some.inj h) (by decide)
        · split at h
          · next hstall => exact hstall
          · cases h

theorem reason_forced (h : s.forcedReason ≠ "") : s.reason v now = some s.forcedReason := if_pos h

theorem lease_pos (v : Supervisor) : (0 : ℚ) < v.effectiveProgressLeaseSeconds := by
  have hpos : 0 < v.effectiveProgressLeaseSeconds := by
    unfold Supervisor.effectiveProgressLeaseSeconds
    dsimp only
    split <;> split <;> omega
  exact_mod_cast hpos

end State

end AutoAgents.Supervision
