import AutoAgents.PromptPreparation

/-! What the prompts of a request keep over any sequence of preparations and handoffs. -/

namespace AutoAgents.Prompting

open Base

variable {φ : Type} [FloatText φ] {h : Host} {r : Request φ}

/-! ### Sequences -/

inductive Act
  | prepares (runtime : ProviderRuntime)
  | hands (reason progress : String)

def Host.act (h : Host) (r : Request φ) : Act → Request φ
  | .prepares runtime => h.prepareRequest r runtime
  | .hands reason progress => h.freshRequest r reason progress

/-- The texts of the handoffs. -/
def handed (acts : List Act) : List String :=
  acts.filterMap fun act =>
    match act with
    | .prepares _ => none
    | .hands _ progress => some progress

/-- What a request still has of the first one and of the texts that were handed over since: its specification, with
contexts for the texts, and the pending text as a context or still pending. -/
structure Keeps (h : Host) (first : Request φ) (texts : List String) (r : Request φ) : Prop where
  blocks : r.spec.blocks = first.spec.blocks
  outputs : r.spec.outputContract = first.spec.outputContract
  purpose : r.spec.purpose = first.spec.purpose
  adaptation : r.modelAdaptation = first.modelAdaptation
  contexts : first.spec.contexts ⊆ r.spec.contexts
  texts : ∀ text ∈ texts, text ≠ "" → ∃ c ∈ r.spec.contexts, c.text = text
  pending : first.isContinuation = true → h.transferred first ≠ "" →
    (∃ c ∈ r.spec.contexts, c.text = h.transferred first) ∨
      (r.isContinuation = true ∧ r.pending = first.pending ∧ r.fallbackContinuation = first.fallbackContinuation ∧
        r.fallbackHash = first.fallbackHash)

variable {first : Request φ} {texts : List String}

omit [FloatText φ] in
theorem keeps_first (first : Request φ) : Keeps h first [] first where
  blocks := rfl
  outputs := rfl
  purpose := rfl
  adaptation := rfl
  contexts := List.Subset.refl _
  texts _ htext := absurd htext List.not_mem_nil
  pending hcontinues _ := Or.inr ⟨hcontinues, rfl, rfl, rfl⟩

omit [FloatText φ] in
theorem Keeps.noted (hkeeps : Keeps h first texts r) (metadata : Fields φ) :
    Keeps h first texts { r with metadata := metadata } := by
  obtain ⟨hblocks, houtputs, hpurpose, hadaptation, hcontexts, htexts, hpending⟩ := hkeeps
  exact ⟨hblocks, houtputs, hpurpose, hadaptation, hcontexts, htexts, hpending⟩

theorem subset_addContext (contexts : List ContextBlock) (text source : String) : contexts ⊆ addContext contexts text source := by
  unfold addContext
  split
  · exact List.subset_append_left _ _
  · exact List.Subset.refl _

theorem exists_addContext {text : String} (htext : text ≠ "") (contexts : List ContextBlock) (source : String) :
    ∃ c ∈ addContext contexts text source, c.text = text := by
  unfold addContext
  split
  · exact ⟨⟨text, source, ""⟩, by simp, rfl⟩
  · next hold =>
      have hany : (contexts.any fun c => c.text == text) = true := by
        by_contra hnone
        exact hold ⟨htext, by simpa using hnone⟩
      obtain ⟨c, hc, heq⟩ := List.any_eq_true.mp hany
      exact ⟨c, hc, by simpa using heq⟩

omit [FloatText φ] in
theorem Keeps.fresh (hkeeps : Keeps h first texts r) (reason progress : String) :
    Keeps h first (texts ++ [progress]) (h.freshRequest r reason progress) := by
  have hfirst := subset_addContext r.spec.contexts (h.transferred r) "previous progress"
  have hsecond := subset_addContext (addContext r.spec.contexts (h.transferred r) "previous progress") progress "provider handoff"
  have hsubset : r.spec.contexts ⊆ (h.freshRequest r reason progress).spec.contexts := fun c hc => hsecond (hfirst hc)
  refine ⟨hkeeps.blocks, hkeeps.outputs, hkeeps.purpose, hkeeps.adaptation, fun c hc => hsubset (hkeeps.contexts hc), ?_, ?_⟩
  · intro text htext hsome
    rcases List.mem_append.mp htext with hold | hnew
    · obtain ⟨c, hc, heq⟩ := hkeeps.texts text hold hsome
      exact ⟨c, hsubset hc, heq⟩
    · obtain rfl := List.mem_singleton.mp hnew
      exact exists_addContext hsome _ _
  · intro hcontinues hsome
    rcases hkeeps.pending hcontinues hsome with ⟨c, hc, heq⟩ | ⟨-, hpending, hfallback, hhash⟩
    · exact Or.inl ⟨c, hsubset hc, heq⟩
    · have htransferred : h.transferred r = h.transferred first := by
        unfold Host.transferred
        rw [hpending, hfallback, hhash]
      obtain ⟨c, hc, heq⟩ := exists_addContext hsome r.spec.contexts "previous progress"
      refine Or.inl ⟨c, hsecond ?_, heq⟩
      rwa [htransferred]

theorem Keeps.prepared (hkeeps : Keeps h first texts r) (hfirst : first.isContinuation = true → first.pending ≠ "")
    (runtime : ProviderRuntime) : Keeps h first texts (h.prepared r runtime) := by
  refine ⟨?_, ?_, ?_, ?_, ?_, ?_, fun hcontinues hsome => ?_⟩
  · rw [prepared_spec, hkeeps.blocks]
  · rw [prepared_spec, hkeeps.outputs]
  · rw [prepared_spec, hkeeps.purpose]
  · rw [prepared_adaptation, hkeeps.adaptation]
  · rw [prepared_spec]
    exact hkeeps.contexts
  · rw [prepared_spec]
    exact hkeeps.texts
  · rw [prepared_spec]
    rcases hkeeps.pending hcontinues hsome with hcontext | ⟨hstill, hpending, hfallback, hhash⟩
    · exact Or.inl hcontext
    · have hsame := prepared_pending (h := h) (r := r) runtime fun _ => by
        rw [hpending]
        exact hfirst hcontinues
      rw [prepared_continues, hsame, prepared_fallback, prepared_fallbackHash]
      exact Or.inr ⟨hstill, hpending, hfallback, hhash⟩

omit [FloatText φ] in
theorem Keeps.fewer {more : List String} (hkeeps : Keeps h first (texts ++ more) r) : Keeps h first texts r :=
  ⟨hkeeps.blocks, hkeeps.outputs, hkeeps.purpose, hkeeps.adaptation, hkeeps.contexts,
    fun text htext => hkeeps.texts text (List.mem_append_left more htext), hkeeps.pending⟩

theorem Keeps.act (hkeeps : Keeps h first texts r) (hfirst : first.isContinuation = true → first.pending ≠ "") (act : Act) :
    Keeps h first (texts ++ handed [act]) (h.act r act) := by
  cases act with
  | prepares runtime =>
      rw [show texts ++ handed [.prepares runtime] = texts from List.append_nil texts]
      rw [Host.act]
      rcases prepareRequest_cases (h := h) r runtime with ⟨-, heq⟩ | ⟨metadata, reason, heq⟩
      · rw [heq]
        exact hkeeps.prepared hfirst runtime
      · rw [heq]
        exact ((hkeeps.noted metadata).fresh reason "").fewer.prepared hfirst runtime
  | hands reason progress => exact hkeeps.fresh reason progress

/-- Whatever is done with a request, it keeps what it had and what was handed over. -/
theorem keeps_acts (hkeeps : Keeps h first texts r) (hfirst : first.isContinuation = true → first.pending ≠ "")
    (acts : List Act) : Keeps h first (texts ++ handed acts) (acts.foldl h.act r) := by
  induction acts generalizing texts r with
  | nil =>
      rw [show texts ++ handed [] = texts from List.append_nil texts]
      exact hkeeps
  | cons act acts ih =>
      have hlater := ih (hkeeps.act hfirst act)
      have hsplit : handed [act] ++ handed acts = handed (act :: acts) := by cases act <;> rfl
      rwa [List.append_assoc, hsplit] at hlater

/-! ### What is sent -/

theorem withAttachments_same (spec : PromptSpec) (attachments : List String) (runtime : ProviderRuntime) :
    (withAttachments spec attachments runtime).purpose = spec.purpose ∧
      (withAttachments spec attachments runtime).blocks = spec.blocks ∧
      (withAttachments spec attachments runtime).outputContract = spec.outputContract ∧
      spec.contexts ⊆ (withAttachments spec attachments runtime).contexts := by
  unfold withAttachments
  split
  · exact ⟨rfl, rfl, rfl, List.subset_append_left _ _⟩
  · exact ⟨rfl, rfl, rfl, List.Subset.refl _⟩

/-- A prompt with the whole task: the blocks that share no key with another text, the outputs and the contexts of the first
request, the text that was pending (or the one that is stored for it), and the texts that were handed over. -/
structure Sends (h : Host) (first : Request φ) (runtime : ProviderRuntime) (texts : List String) (prompt : String) : Prop where
  blocks : ∀ block ∈ first.spec.blocks, h.Apart (h.allBlocks first.spec runtime first.modelAdaptation) block →
    block.text.toList <:+: prompt.toList
  outputs : ∀ output ∈ first.spec.outputContract, output.toList <:+: prompt.toList
  contexts : ∀ c ∈ first.spec.contexts, (c.asDict φ).pretty 1 <:+: prompt.toList
  pending : first.isContinuation = true → h.transferred first ≠ "" → Tells prompt (h.transferred first)
  texts : ∀ text ∈ texts, text ≠ "" → Tells prompt text

theorem Keeps.sends (hkeeps : Keeps h first texts r) (hplain : r.isContinuation = false) (runtime : ProviderRuntime) :
    Sends h first runtime texts (h.prepared r runtime).prompt := by
  have hview : r.view runtime = withAttachments r.spec r.attachments runtime := by
    rw [Request.view, if_neg (by simp [hplain])]
  obtain ⟨hpurpose, hblocks, houtputs, hcontexts⟩ := withAttachments_same r.spec r.attachments runtime
  rw [← hview] at hpurpose hblocks houtputs hcontexts
  have hall : h.allBlocks (r.view runtime) runtime r.modelAdaptation = h.allBlocks first.spec runtime first.modelAdaptation := by
    simp only [Host.allBlocks, Host.profile, hpurpose, hblocks, hkeeps.purpose, hkeeps.blocks, hkeeps.adaptation]
  have htells {text : String} (hc : ∃ c ∈ r.spec.contexts, c.text = text) : Tells (h.prepared r runtime).prompt text := by
    obtain ⟨c, hc, rfl⟩ := hc
    rw [prepared_prompt]
    exact tells_of_context (φ := φ) (render_context (hcontexts hc))
  refine ⟨fun block hblock hapart => ?_, fun output houtput => ?_, fun c hc => ?_, fun hcontinues hsome => ?_, fun text htext hsome => ?_⟩
  · rw [prepared_prompt]
    refine render_block ?_ ?_
    · rwa [hblocks, hkeeps.blocks]
    · rwa [hall]
  · rw [prepared_prompt]
    refine render_output ?_
    rwa [houtputs, hkeeps.outputs]
  · rw [prepared_prompt]
    exact render_context (hcontexts (hkeeps.contexts hc))
  · rcases hkeeps.pending hcontinues hsome with hcontext | ⟨hstill, -⟩
    · exact htells hcontext
    · rw [hplain] at hstill
      cases hstill
  · exact htells (hkeeps.texts text htext hsome)

/-- A prompt that is sent without a native session has the whole task. -/
theorem prepareRequest_sends (hkeeps : Keeps h first texts r) (runtime : ProviderRuntime)
    (hsession : (h.prepareRequest r runtime).resumeSessionId = "") :
    Sends h first runtime texts (h.prepareRequest r runtime).prompt := by
  rcases prepareRequest_cases (h := h) r runtime with ⟨hsettled, heq⟩ | ⟨metadata, reason, heq⟩
  · rw [heq, prepared_session] at hsession
    rw [heq]
    refine hkeeps.sends ?_ runtime
    by_contra hcontinues
    exact hsettled.1 ⟨by simpa using hcontinues, hsession⟩
  · rw [heq]
    exact ((hkeeps.noted metadata).fresh reason "").fewer.sends rfl runtime

/-- Preparing a request again changes nothing; a session is kept only under the hash of the prepared prompt; and after any
preparations and handoffs, a prompt that is sent without a session has the whole task. A continuation is taken to have a
text. -/
theorem task_kept (hfirst : first.isContinuation = true → first.pending ≠ "") (runtime : ProviderRuntime) :
    h.prepareRequest (h.prepareRequest first runtime) runtime = h.prepareRequest first runtime ∧
    ((h.prepareRequest first runtime).resumeSessionId ≠ "" →
      (h.prepareRequest first runtime).resumeSessionId = first.resumeSessionId ∧
        (h.prepareRequest first runtime).metadata.lookup "compatibility_hash" = some (.str first.resumePromptHash)) ∧
    ∀ acts : List Act, (h.prepareRequest (acts.foldl h.act first) runtime).resumeSessionId = "" →
      Sends h first runtime (handed acts) (h.prepareRequest (acts.foldl h.act first) runtime).prompt := by
  refine ⟨prepareRequest_again runtime hfirst, session_kept, fun acts hsession => ?_⟩
  have hkeeps := keeps_acts (h := h) (keeps_first first) hfirst acts
  rw [List.nil_append] at hkeeps
  exact prepareRequest_sends hkeeps runtime hsession

/-! ### Two blocks with one rule -/

def plainHost : Host where
  digest := id
  lower text := String.ofList (text.toList.map Char.toLower)
  isDigit := Char.isDigit
  policyHash := "policy"
  instructionsHash _ _ := "instructions"

def taskRequest (blocks : List PromptBlock) : Request FloatLiteral where
  prompt := ""
  spec := { purpose := "task", blocks := blocks }
  effort := "deep"
  cwd := "/project"
  confined hread := absurd hread (by simp [readOnly])

theorem session_none (runtime : ProviderRuntime) (hnone : r.resumeSessionId = "") :
    (h.prepareRequest r runtime).resumeSessionId = "" := by
  rcases prepareRequest_cases (h := h) r runtime with ⟨-, heq⟩ | ⟨metadata, reason, heq⟩
  · rw [heq, prepared_session, hnone]
  · rw [heq, prepared_session]
    simp only [Host.freshRequest]

/-- A task is prepared for one provider and handed over to another. -/
def handoffs : List Act := [.prepares { provider := "codex" }, .hands "provider-switch" "half done"]

theorem task_kept_once :
    Tells (plainHost.prepareRequest (handoffs.foldl plainHost.act (taskRequest [])) { }).prompt "half done" := by
  have hsession : (plainHost.prepareRequest (handoffs.foldl plainHost.act (taskRequest [])) { }).resumeSessionId = "" := by
    apply session_none
    simp only [handoffs, List.foldl_cons, List.foldl_nil, Host.act, Host.freshRequest]
  have hpending : (taskRequest []).isContinuation = true → (taskRequest []).pending ≠ "" := fun hcontinues => by cases hcontinues
  obtain ⟨-, -, hsends⟩ := @task_kept FloatLiteral _ plainHost (taskRequest []) hpending { }
  exact (hsends handoffs hsession).texts "half done" (by decide) (by decide)

/-- Of two blocks with one rule, the second is not in the prompt. -/
theorem block_dropped : ∃ (r : Request FloatLiteral) (block : PromptBlock), block ∈ r.spec.blocks ∧
    (plainHost.prepareRequest r { }).resumeSessionId = "" ∧
    ¬ block.text.toList <:+: (plainHost.prepareRequest r { }).prompt.toList := by
  refine ⟨taskRequest [{ text := "first", ruleId := "task.rule" }, { text := "second", ruleId := "task.rule" }],
    { text := "second", ruleId := "task.rule" }, ?_, session_none _ rfl, ?_⟩
  · simp [taskRequest]
  · have hsettled : plainHost.Settled (taskRequest
        [{ text := "first", ruleId := "task.rule" }, { text := "second", ruleId := "task.rule" }]) { } :=
      ⟨fun hlost => (by cases hlost.1), fun hsession => hsession.1 rfl⟩
    rw [prepareRequest_settled hsettled, prepared_prompt]
    decide +kernel

end AutoAgents.Prompting
