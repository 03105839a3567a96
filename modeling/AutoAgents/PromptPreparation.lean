import AutoAgents.PromptRequests

/-! What a rendered prompt contains, and that a request that is prepared is prepared for good. -/

namespace AutoAgents.Prompting

open Base

variable {φ : Type} [FloatText φ] {h : Host}

/-! ### What a rendered prompt contains -/

theorem infix_intercalate {sep part : List Char} {parts : List (List Char)} (hpart : part ∈ parts) :
    part <:+: sep.intercalate parts := by
  induction parts with
  | nil => cases hpart
  | cons first rest ih =>
      cases rest with
      | nil =>
          obtain rfl := List.mem_singleton.mp hpart
          simp only [List.intercalate_singleton, List.infix_rfl]
      | cons second rest =>
          rw [List.intercalate_cons_cons]
          rcases List.mem_cons.mp hpart with rfl | hlater
          · exact ⟨[], sep ++ sep.intercalate (second :: rest), by simp⟩
          · exact (ih hlater).trans (List.suffix_append _ _).isInfix

theorem infix_joinParts {part : String} {parts : List String} (hpart : part ∈ parts) :
    part.toList <:+: (joinParts parts).toList := by
  rw [joinParts, String.toList_ofList]
  exact infix_intercalate (List.mem_map_of_mem hpart)

theorem place_placed (p : Placement) (block : PromptBlock) : p.placed <+: (h.place p block).placed := by
  unfold Host.place
  split
  · exact List.prefix_rfl
  · split
    · exact List.prefix_rfl
    · exact List.prefix_append _ _

/-- After its turn, the text of a block is placed, or another one of its key is. -/
theorem place_covers (p : Placement) (block : PromptBlock) :
    block.text ∈ (h.place p block).placed.map Prod.fst ∨ h.ruleKey block ∈ (h.place p block).keys := by
  unfold Host.place
  split
  · next key hkey => exact Or.inl (List.mem_map_of_mem (mem_of_lookup hkey))
  · split
    · next hmem => exact Or.inr hmem
    · exact Or.inl (by simp)

theorem foldl_place_placed (blocks : List PromptBlock) (p : Placement) : p.placed <+: (blocks.foldl h.place p).placed := by
  induction blocks generalizing p with
  | nil => exact List.prefix_rfl
  | cons block blocks ih => exact (place_placed p block).trans (ih _)

theorem foldl_place_covers {blocks : List PromptBlock} {block : PromptBlock} (hblock : block ∈ blocks) (p : Placement) :
    block.text ∈ (blocks.foldl h.place p).placed.map Prod.fst ∨ h.ruleKey block ∈ (blocks.foldl h.place p).keys := by
  induction blocks generalizing p with
  | nil => cases hblock
  | cons first blocks ih =>
      rcases List.mem_cons.mp hblock with rfl | hlater
      · have hkept := foldl_place_placed (h := h) blocks (h.place p block)
        rcases place_covers (h := h) p block with htext | hkey
        · exact Or.inl (List.map_subset Prod.fst hkept.subset htext)
        · exact Or.inr (List.map_subset Prod.snd hkept.subset hkey)
      · exact ih hlater _

/-- What is placed comes from a block. -/
theorem foldl_place_origin {blocks : List PromptBlock} {p : Placement} {entry : String × String}
    (hentry : entry ∈ (blocks.foldl h.place p).placed) :
    entry ∈ p.placed ∨ ∃ block ∈ blocks, entry = (block.text, h.ruleKey block) := by
  induction blocks generalizing p with
  | nil => exact Or.inl hentry
  | cons block blocks ih =>
      rcases ih hentry with hplaced | ⟨other, hother, heq⟩
      · unfold Host.place at hplaced
        split at hplaced
        · exact Or.inl hplaced
        · split at hplaced
          · exact Or.inl hplaced
          · rcases List.mem_append.mp hplaced with hold | hnew
            · exact Or.inl hold
            · exact Or.inr ⟨block, List.mem_cons_self, List.mem_singleton.mp hnew⟩
      · exact Or.inr ⟨other, List.mem_cons_of_mem block hother, heq⟩

variable {spec : PromptSpec} {runtime : ProviderRuntime} {adaptation : String}

/-- No other text of the blocks has the key of this one. -/
def Host.Apart (h : Host) (blocks : List PromptBlock) (block : PromptBlock) : Prop :=
  ∀ other ∈ blocks, h.ruleKey other = h.ruleKey block → other.text = block.text

theorem placement_text {block : PromptBlock} (hblock : block ∈ h.allBlocks spec runtime adaptation)
    (hapart : h.Apart (h.allBlocks spec runtime adaptation) block) :
    block.text ∈ (h.placement spec runtime adaptation).placed.map Prod.fst := by
  rcases foldl_place_covers (h := h) hblock { } with htext | hkey
  · exact htext
  · obtain ⟨entry, hentry, hsnd⟩ := List.mem_map.mp hkey
    rcases foldl_place_origin hentry with hnone | ⟨other, hother, rfl⟩
    · cases hnone
    · rw [← hapart other hother hsnd]
      exact List.mem_map_of_mem hentry

/-- A text stands in the prompt as the value of a context. -/
def Tells (prompt text : String) : Prop := encodeString text.toList <:+: prompt.toList

theorem render_block {block : PromptBlock} (hblock : block ∈ spec.blocks)
    (hapart : h.Apart (h.allBlocks spec runtime adaptation) block) :
    block.text.toList <:+: (h.render φ spec runtime adaptation).toList := by
  have hall : block ∈ h.allBlocks spec runtime adaptation := List.mem_append_right _ hblock
  refine infix_joinParts ?_
  simp only [List.mem_append]
  exact Or.inl (Or.inl (Or.inl (placement_text hall hapart)))

theorem render_output {output : String} (houtput : output ∈ spec.outputContract) :
    output.toList <:+: (h.render φ spec runtime adaptation).toList :=
  infix_joinParts (List.mem_append_right _ houtput)

theorem render_context {c : ContextBlock} (hc : c ∈ spec.contexts) :
    (c.asDict φ).pretty 1 <:+: (h.render φ spec runtime adaptation).toList := by
  have hsome : spec.contexts ≠ [] := List.ne_nil_of_mem hc
  have hpart : contextText φ spec.contexts ∈ (h.placement spec runtime adaptation).placed.map Prod.fst ++
      (if spec.contexts = [] then [] else [contextText φ spec.contexts]) ++ ["CURRENT STAGE: " ++ spec.purpose] ++
      spec.outputContract := by
    rw [if_neg hsome]
    simp
  have hjoined := infix_joinParts hpart
  have hlist : c.asDict φ ∈ spec.contexts.map (ContextBlock.asDict φ) := List.mem_map_of_mem hc
  have hitem := pretty_item hlist 0
  rw [Nat.zero_add] at hitem
  unfold Host.render
  refine List.IsInfix.trans hitem (List.IsInfix.trans ?_ hjoined)
  rw [contextText, String.toList_append, String.toList_ofList]
  exact (List.suffix_append _ _).isInfix

theorem tells_of_context {c : ContextBlock} {prompt : String} (hc : (c.asDict φ).pretty 1 <:+: prompt.toList) :
    Tells prompt c.text := by
  have hfirst := pretty_first "text" (.str (φ := φ) c.text) [("source", .str c.source), ("context_id", .str c.contextId)] 1
  rw [pretty_str] at hfirst
  rw [ContextBlock.asDict] at hc
  exact List.IsInfix.trans hfirst hc

/-! ### One preparation -/

/-- The request is prepared as it is: it has no session to give up, and is no continuation of a session that is lost. -/
def Host.Settled (h : Host) (r : Request φ) (runtime : ProviderRuntime) : Prop :=
  ¬ (r.isContinuation = true ∧ r.resumeSessionId = "") ∧ ¬ (r.resumeSessionId ≠ "" ∧ h.incompatible r runtime = true)

variable {r : Request φ}

theorem prepareRequest_settled (hsettled : h.Settled r runtime) : h.prepareRequest r runtime = h.prepared r runtime := by
  rw [Host.prepareRequest, if_neg hsettled.1, if_neg hsettled.2]

theorem settled_fresh (r : Request φ) (reason progress : String) : h.Settled (h.freshRequest r reason progress) runtime :=
  ⟨fun hlost => absurd hlost.1 (by simp [Host.freshRequest]), fun hsession => absurd rfl hsession.1⟩

/-- A preparation is of the request itself, or of one that has given up its session. -/
theorem prepareRequest_cases (r : Request φ) (runtime : ProviderRuntime) :
    (h.Settled r runtime ∧ h.prepareRequest r runtime = h.prepared r runtime) ∨
      ∃ metadata reason, h.prepareRequest r runtime =
        h.prepared (h.freshRequest { r with metadata := metadata } reason "") runtime := by
  by_cases hlost : r.isContinuation = true ∧ r.resumeSessionId = ""
  · refine Or.inr ⟨r.metadata, "missing-native-session", ?_⟩
    rw [Host.prepareRequest, if_pos hlost]
    exact prepareRequest_settled (settled_fresh _ _ _)
  · by_cases hsession : r.resumeSessionId ≠ "" ∧ h.incompatible r runtime = true
    · refine Or.inr ⟨(h.withChanges r runtime).metadata, "incompatible-native-session", ?_⟩
      rw [Host.prepareRequest, if_neg hlost, if_pos hsession]
      exact prepareRequest_settled (settled_fresh _ _ _)
    · exact Or.inl ⟨⟨hlost, hsession⟩, prepareRequest_settled ⟨hlost, hsession⟩⟩

/-! ### Preparation again -/

theorem lookup_append_absent {α : Type} {front back : List (String × α)} {key : String} (habsent : key ∉ front.map Prod.fst) :
    (front ++ back).lookup key = back.lookup key := by
  rw [List.lookup_append, lookup_none habsent, Option.none_or]

theorem lookup_front {α : Type} {front back : List (String × α)} {key : String} (habsent : key ∉ back.map Prod.fst) :
    (front ++ back).lookup key = front.lookup key := by
  rw [List.lookup_append, lookup_none habsent, Option.or_none]

omit [FloatText φ] in
theorem lookup_taken {metadata : Fields φ} {key : String} (keys : List String) :
    (keys.filterMap fun key => (metadata.lookup key).map (key, ·)).lookup key =
      if key ∈ keys then metadata.lookup key else none := by
  induction keys with
  | nil => rfl
  | cons first keys ih =>
      by_cases hkey : key = first
      · subst hkey
        cases hvalue : metadata.lookup key with
        | none => simp [hvalue, ih]
        | some v => simp [hvalue]
      · cases hvalue : metadata.lookup first with
        | none => simp [hvalue, ih, hkey]
        | some v =>
            have hskip (rest : Fields φ) : ((first, v) :: rest).lookup key = rest.lookup key :=
              lookup_cons_ne (show key ≠ (first, v).1 from hkey)
            simp only [List.filterMap_cons, hvalue, Option.map_some, hskip, ih, List.mem_cons, hkey, false_or]

omit [FloatText φ] in
theorem carried_congr {metadata metadata' : Fields φ}
    (hsame : ∀ key ∈ carriedKeys, metadata.lookup key = metadata'.lookup key) : carried metadata = carried metadata' := by
  refine List.filterMap_congr fun key hkey => ?_
  rw [hsame key hkey]

/-- The keys that every preparation sets, before and behind those that it takes over. -/
def renderKeys : List String :=
  ["policy_version", "purpose", "output_contract_version", "rule_ids", "model_profile", "provider", "cli_version",
    "configured_model", "binary_identity", "settings_fingerprint", "settings_components", "rule_aliases", "resolved_model",
    "resolution_source", "prompt_sha256", "prompt_bytes", "context_bytes"]

theorem renderMetadata_keys : (h.renderMetadata spec runtime adaptation : Fields φ).map Prod.fst = renderKeys := rfl

def requestKeys : List String := ["adaptation", "resumed", "sandbox_mode", "cwd", "effort", "fallback_reason"]

def identityKeys : List String :=
  ["policy_hash", "contract_hash", "instructions_hash", "compatibility_hash", "compatibility_components", "full_prompt_bytes",
    "prompt_mode"]

theorem carried_keys : ∀ key ∈ carriedKeys, key ∉ renderKeys ∧ key ∉ requestKeys ∧ key ∉ identityKeys := by decide +kernel

theorem preparedMetadata_reason (r : Request φ) (runtime : ProviderRuntime) :
    fallbackReason (h.preparedMetadata r runtime) = fallbackReason r.metadata := by
  have habsent : "fallback_reason" ∉ (h.renderMetadata (r.view runtime) runtime r.modelAdaptation : Fields φ).map Prod.fst := by
    rw [renderMetadata_keys]
    decide +kernel
  rw [fallbackReason, Host.preparedMetadata, List.append_assoc, List.append_assoc, lookup_append_absent habsent]
  simp [List.lookup]

theorem preparedMetadata_carried (r : Request φ) (runtime : ProviderRuntime) :
    carried (h.preparedMetadata r runtime) = carried r.metadata := by
  refine carried_congr fun key hkey => ?_
  obtain ⟨hrender, hrequest, hidentity⟩ := carried_keys key hkey
  have habsent : key ∉ (h.renderMetadata (r.view runtime) runtime r.modelAdaptation : Fields φ).map Prod.fst := by
    rwa [renderMetadata_keys]
  rw [Host.preparedMetadata, List.append_assoc, List.append_assoc, lookup_append_absent habsent]
  rw [lookup_append_absent (show key ∉ requestKeys from hrequest)]
  rw [lookup_front (show key ∉ identityKeys from hidentity), carried, lookup_taken, if_pos hkey]

theorem lookup_hash (r : Request φ) (runtime : ProviderRuntime) :
    (h.preparedMetadata r runtime).lookup "compatibility_hash" = some (.str (h.compatibilityHash r runtime)) := by
  have habsent : "compatibility_hash" ∉ (h.renderMetadata (r.view runtime) runtime r.modelAdaptation : Fields φ).map Prod.fst := by
    rw [renderMetadata_keys]
    decide +kernel
  have hcarried : (carried r.metadata).lookup "compatibility_hash" = none := by
    rw [carried, lookup_taken, if_neg (by decide +kernel)]
  rw [Host.preparedMetadata, List.append_assoc, List.append_assoc, lookup_append_absent habsent,
    lookup_append_absent (show "compatibility_hash" ∉ requestKeys by decide +kernel), List.lookup_append, hcarried]
  simp [List.lookup]

omit [FloatText φ] in
/-- A text that is pending is still so when it is written down, unless a continuation has none. -/
theorem pending_noted (r : Request φ) (text : String) (metadata : Fields φ)
    (hpending : r.isContinuation = true → r.pending ≠ "") :
    ({ r with prompt := text, metadata := metadata, continuation := r.pending } : Request φ).pending = r.pending := by
  by_cases hown : r.continuation = ""
  · by_cases hcontinues : r.isContinuation = true
    · have hprompt : r.prompt ≠ "" := by simpa [Request.pending, hown, hcontinues] using hpending hcontinues
      simp [Request.pending, hown, hcontinues, hprompt]
    · simp [Request.pending, hown, hcontinues]
  · simp [Request.pending, hown]

/-! What a preparation leaves of a request. -/

@[simp] theorem prepared_spec : (h.prepared r runtime).spec = r.spec := by
  simp only [Host.prepared]

@[simp] theorem prepared_effort : (h.prepared r runtime).effort = r.effort := by
  simp only [Host.prepared]

@[simp] theorem prepared_cwd : (h.prepared r runtime).cwd = r.cwd := by
  simp only [Host.prepared]

@[simp] theorem prepared_attachments : (h.prepared r runtime).attachments = r.attachments := by
  simp only [Host.prepared]

@[simp] theorem prepared_session : (h.prepared r runtime).resumeSessionId = r.resumeSessionId := by
  simp only [Host.prepared]

@[simp] theorem prepared_hash : (h.prepared r runtime).resumePromptHash = r.resumePromptHash := by
  simp only [Host.prepared]

@[simp] theorem prepared_sandbox : (h.prepared r runtime).sandboxMode = r.sandboxMode := by
  simp only [Host.prepared]

@[simp] theorem prepared_adaptation : (h.prepared r runtime).modelAdaptation = r.modelAdaptation := by
  simp only [Host.prepared]

@[simp] theorem prepared_continues : (h.prepared r runtime).isContinuation = r.isContinuation := by
  simp only [Host.prepared]

@[simp] theorem prepared_provider : (h.prepared r runtime).resumeProvider = r.resumeProvider := by
  simp only [Host.prepared]

@[simp] theorem prepared_fallback : (h.prepared r runtime).fallbackContinuation = r.fallbackContinuation := by
  simp only [Host.prepared]

@[simp] theorem prepared_fallbackHash : (h.prepared r runtime).fallbackHash = r.fallbackHash := by
  simp only [Host.prepared]

@[simp] theorem prepared_prompt : (h.prepared r runtime).prompt = h.render φ (r.view runtime) runtime r.modelAdaptation := by
  simp only [Host.prepared]

@[simp] theorem prepared_continuation : (h.prepared r runtime).continuation = r.pending := by
  simp only [Host.prepared]

@[simp] theorem prepared_metadata : (h.prepared r runtime).metadata = h.preparedMetadata r runtime := by
  simp only [Host.prepared]

theorem prepared_pending (runtime : ProviderRuntime) (hpending : r.isContinuation = true → r.pending ≠ "") :
    (h.prepared r runtime).pending = r.pending := by
  rw [Host.prepared]
  exact pending_noted r _ _ hpending

theorem prepared_view (runtime other : ProviderRuntime) (hpending : r.isContinuation = true → r.pending ≠ "") :
    (h.prepared r runtime).view other = r.view other := by
  simp only [Request.view, prepared_pending runtime hpending, prepared_spec, prepared_attachments, prepared_continues]

theorem prepared_compatibility (r : Request φ) (runtime other : ProviderRuntime) :
    h.compatibility (h.prepared r runtime) other = h.compatibility r other := by
  simp only [Host.compatibility, instructionsOf, prepared_spec, prepared_effort, prepared_cwd, prepared_sandbox,
    prepared_adaptation]

theorem prepared_compatibilityHash (r : Request φ) (runtime other : ProviderRuntime) :
    h.compatibilityHash (h.prepared r runtime) other = h.compatibilityHash r other := by
  rw [Host.compatibilityHash, prepared_compatibility, Host.compatibilityHash]

theorem settled_prepared (hsettled : h.Settled r runtime) : h.Settled (h.prepared r runtime) runtime := by
  unfold Host.Settled Host.incompatible at *
  simpa only [prepared_compatibilityHash, prepared_continues, prepared_session, prepared_hash] using hsettled

theorem preparedMetadata_again (runtime : ProviderRuntime) (hpending : r.isContinuation = true → r.pending ≠ "") :
    h.preparedMetadata (h.prepared r runtime) runtime = h.preparedMetadata r runtime := by
  have hreason := preparedMetadata_reason (h := h) r runtime
  have hcarried := preparedMetadata_carried (h := h) r runtime
  have hcomponents : h.compatibilityComponents (h.prepared r runtime) runtime = h.compatibilityComponents r runtime := by
    rw [Host.compatibilityComponents, prepared_compatibility, Host.compatibilityComponents]
  rw [Host.preparedMetadata, prepared_view runtime runtime hpending, prepared_metadata, hreason, hcarried, hcomponents,
    prepared_compatibilityHash]
  rw [Host.preparedMetadata]
  simp only [instructionsOf, prepared_spec, prepared_effort, prepared_cwd, prepared_sandbox, prepared_adaptation,
    prepared_session, prepared_attachments, prepared_continues]

/-- A second preparation for the same runtime finds what the first one has made. -/
theorem prepared_prepared (runtime : ProviderRuntime) (hpending : r.isContinuation = true → r.pending ≠ "") :
    h.prepared (h.prepared r runtime) runtime = h.prepared r runtime := by
  have hview := prepared_view (h := h) runtime runtime hpending
  have hsame := prepared_pending (h := h) runtime hpending
  have hmetadata := preparedMetadata_again (h := h) runtime hpending
  apply Request.ext
  all_goals simp only [prepared_prompt, prepared_continuation, prepared_metadata, prepared_spec, prepared_effort, prepared_cwd,
    prepared_attachments, prepared_session, prepared_provider, prepared_hash, prepared_sandbox, prepared_adaptation,
    prepared_continues, prepared_fallback, prepared_fallbackHash, hview, hsame, hmetadata]

theorem prepareRequest_again (runtime : ProviderRuntime) (hpending : r.isContinuation = true → r.pending ≠ "") :
    h.prepareRequest (h.prepareRequest r runtime) runtime = h.prepareRequest r runtime := by
  rcases prepareRequest_cases (h := h) r runtime with ⟨hsettled, heq⟩ | ⟨metadata, reason, heq⟩
  · rw [heq, prepareRequest_settled (settled_prepared hsettled), prepared_prepared runtime hpending]
  · have hfresh : h.Settled (h.freshRequest { r with metadata := metadata } reason "") runtime := settled_fresh _ _ _
    rw [heq, prepareRequest_settled (settled_prepared hfresh), prepared_prepared runtime]
    intro hcontinues
    simp [Host.freshRequest] at hcontinues

/-- A session that is kept was made for a prompt with the compatibility hash of the one that is prepared. -/
theorem session_kept (hkept : (h.prepareRequest r runtime).resumeSessionId ≠ "") :
    (h.prepareRequest r runtime).resumeSessionId = r.resumeSessionId ∧
      (h.prepareRequest r runtime).metadata.lookup "compatibility_hash" = some (.str r.resumePromptHash) := by
  rcases prepareRequest_cases (h := h) r runtime with ⟨hsettled, heq⟩ | ⟨metadata, reason, heq⟩
  · rw [heq, prepared_session] at hkept
    rw [heq, prepared_session, prepared_metadata]
    have hcompatible : h.incompatible r runtime = false := by
      by_contra hbad
      exact hsettled.2 ⟨hkept, by simpa using hbad⟩
    have hhash : r.resumePromptHash = h.compatibilityHash r runtime := by
      simp only [Host.incompatible, Bool.or_eq_false_iff, decide_eq_false_iff_not, ne_eq, not_not] at hcompatible
      exact hcompatible.1
    refine ⟨rfl, ?_⟩
    rw [hhash]
    exact lookup_hash r runtime
  · rw [heq, prepared_session] at hkept
    simp [Host.freshRequest] at hkept

end AutoAgents.Prompting
