import AutoAgents.TargetShards
import AutoAgents.VerificationSelection

/-! Steps whose directories of tests are split into batches, the references to the proofs they were, and when a
reference names the steps that were made of its step and no others. What is found in a directory is a parameter, and
so is how much a file weighs. -/

namespace AutoAgents.Verification.Sharding

open Base

/-! ### Batches -/

section Batches

variable {W : Type} [Add W] [Zero W] (lighter : W → W → Bool)

/-- `min(range(batch_count), key=lambda item: (weights[item], item))` -/
def lightest (weights : List W) : Nat :=
  (List.range weights.length).foldl (fun best i =>
    if lighter (weights.getD i 0) (weights.getD best 0) = true then i else best) 0

/-- The heavier is before the other, and of two as heavy the one whose name is. -/
def heavierFirst (a b : W × String) : Prop :=
  lighter b.1 a.1 = true ∨ (lighter a.1 b.1 = false ∧ a.2 ≤ b.2)

instance (a b : W × String) : Decidable (heavierFirst lighter a b) :=
  inferInstanceAs (Decidable (_ ∨ _))

/-- A target goes to the lightest batch. -/
def addWeighted (batches : List (List String) × List W) (target : W × String) : List (List String) × List W :=
  let index := lightest lighter batches.2
  (batches.1.modify index (· ++ [target.2]), batches.2.modify index (· + target.1))

/-- `_balanced_target_batches` -/
def balancedTargetBatches (weight : String → W) (targets : List String) (maxBatches : Int) : List (List String) :=
  let unique := fromKeys targets
  if unique = [] then []
  else
    let count := shardCount unique.length maxBatches
    if count = unique.length then unique.map fun target => [target]
    else
      let weighted := (unique.map fun target => (weight target, target)).insertionSort (heavierFirst lighter)
      let batches := (weighted.foldl (addWeighted lighter) (List.replicate count [], List.replicate count 0)).1
      (batches.filter (· ≠ [])).map fun batch => batch.insertionSort (· ≤ ·)

end Batches

/-! ### Expansion -/

def startsWith (start text : String) : Bool := start.toList.isPrefixOf text.toList

def stripped (text : String) : String := String.ofList (Operator.strip text.toList)

/-- `arg.startswith(("--ignore=", "--ignore-glob="))` -/
def ignoring (arg : String) : Bool := startsWith "--ignore=" (stripped arg) || startsWith "--ignore-glob=" (stripped arg)

/-- `arg.split("=", 1)[1].strip()` -/
def ignored (arg : String) : String := stripped (String.ofList (((stripped arg).toList.dropWhile (· != '=')).drop 1))

/-- `_pytest_exclude_patterns`: what is left out, and the other arguments. -/
def pytestExcludePatterns : List String → List String × List String
  | [] => ([], [])
  | [arg] => if ignoring arg = true then ([ignored arg], []) else ([], [stripped arg])
  | arg :: value :: rest =>
      if stripped arg = "--ignore" ∨ stripped arg = "--ignore-glob" then
        let (patterns, remaining) := pytestExcludePatterns rest
        (stripped value :: patterns, remaining)
      else
        let (patterns, remaining) := pytestExcludePatterns (value :: rest)
        if ignoring arg = true then (ignored arg :: patterns, remaining) else (patterns, stripped arg :: remaining)

/-- The project in which steps are expanded: the test files in a directory but for those left out, and what a file
weighs as a target of a step with the arguments. -/
structure Discovery (W : Type) where
  sha256 : List Char → List (Fin 256)
  pytestFiles : List String → String → List String
  weight : VerificationStep → List String → List String → String → W
  lighter : W → W → Bool

/-- The targets that were found, and those in which nothing was, each once. -/
structure Found where
  discovered : List String := []
  fallback : List String := []

def Found.seen (found : Found) (target : String) : Bool := found.discovered.contains target || found.fallback.contains target

/-- One file that was discovered. -/
def Found.addFile (found : Found) (file : String) : Found :=
  if found.seen file = true then found else { found with discovered := found.discovered ++ [file] }

/-- One target, with the files discovered in it. -/
def Found.addTarget (files : String → List String) (found : Found) (target : String) : Found :=
  if files target = [] then
    if found.seen target = true then found else { found with fallback := found.fallback ++ [target] }
  else (files target).foldl Found.addFile found

/-- `[item.strip() for item in step.targets if item.strip()] or ["tests"]` -/
def rawTargets (step : VerificationStep) : List String :=
  let targets := (step.targets.map stripped).filter (· ≠ "")
  if targets = [] then ["tests"] else targets

/-- `step.kind.strip().lower() or "test"` -/
def stepKind (step : VerificationStep) : String := if stripLower step.kind = "" then "test" else stripLower step.kind

def stableForStep (step : VerificationStep) (stableShards : Bool) : Bool :=
  stableShards && stripLower step.resultCacheScope != "off"

/-- Whether the targets of a step are looked into. -/
def isSplit (step : VerificationStep) (stableShards : Bool) : Bool :=
  stepKind step == "test" && stripLower step.runner == "pytest" && step.artifactGlobs == [] &&
    (step.maxBatches != 1 || stableForStep step stableShards)

/-- What is found for the targets of a step. -/
def foundTargets {W : Type} (project : Discovery W) (step : VerificationStep) : Found :=
  (rawTargets step).foldl (Found.addTarget (project.pytestFiles (pytestExcludePatterns step.args).1)) {}

def batchLimit (step : VerificationStep) (maxBatchesPerStep : Int) (stableShards : Bool) : Int :=
  if stableForStep step stableShards = true ∧ step.maxBatches = 1 then maxBatchesPerStep
  else if step.maxBatches = 0 then maxBatchesPerStep else step.maxBatches

section Expansion

variable {W : Type} [Add W] [Zero W]

def targetBatches (project : Discovery W) (step : VerificationStep) (maxBatchesPerStep : Int) (stableShards : Bool) :
    List (List String) :=
  let discovered := (foundTargets project step).discovered
  let limit := batchLimit step maxBatchesPerStep stableShards
  if stableForStep step stableShards = true then stableTargetShards project.sha256 discovered limit
  else
    balancedTargetBatches project.lighter (project.weight step discovered (pytestExcludePatterns step.args).2) discovered limit

/-- The steps that are made of one step. -/
def expandStep (project : Discovery W) (maxBatchesPerStep : Int) (stableShards : Bool) (step : VerificationStep) : Steps :=
  if isSplit step stableShards = true then
    ((foundTargets project step).fallback.map fun target => expandedProofStep project.sha256 step [target] step.args) ++
      (targetBatches project step maxBatchesPerStep stableShards).map fun batch =>
        expandedProofStep project.sha256 step batch (pytestExcludePatterns step.args).2
  else [step]

/-- `expand_pytest_directory_steps` -/
def expandPytestDirectorySteps (project : Discovery W) (maxBatchesPerStep : Int) (stableShards : Bool) (steps : Steps) : Steps :=
  steps.flatMap (expandStep project maxBatchesPerStep stableShards)

end Expansion

/-! ### References -/

/-- `[step.proof_id for step in steps if step.proof_id]` -/
def proofIds (steps : Steps) : List String := (steps.map (·.proofId)).filter (· ≠ "")

/-- `proof_id` is one of the descendants of `source_id`. -/
def descends (source id : String) : Bool :=
  id == source || startsWith (source ++ ".shard-") id || startsWith (source ++ ".remaining-") id

/-- What stands for a proof id. -/
def replacements (source expanded : Steps) (preserveUnknown : Bool) (id : String) : List String :=
  if id ∈ proofIds source then (proofIds expanded).filter (descends id)
  else if id ∈ proofIds expanded then [id]
  else if preserveUnknown = true then [id] else []

/-- Each text that is not there yet is appended. -/
def extendNew (texts more : List String) : List String :=
  more.foldl (fun texts text => if text ∈ texts then texts else texts ++ [text]) texts

/-- `remap_expanded_proof_ids`: the ids, and those that are not known. -/
def remapExpandedProofIds (source expanded : Steps) (ids : List String) (preserveUnknown : Bool := true) :
    List String × List String :=
  (ids.foldl (fun remapped id => extendNew remapped (replacements source expanded preserveUnknown id)) [],
    ids.filter fun id => !((proofIds source).contains id || (proofIds expanded).contains id))

/-- `remap_expanded_proof_dependencies` -/
def remapExpandedProofDependencies (source expanded : Steps) : Steps :=
  expanded.map fun step =>
    { step with dependsOnProofs := (remapExpandedProofIds source expanded step.dependsOnProofs).1 }

/-! ### Every file once -/

theorem flatten_modify {α : Type} {buckets : List (List α)} {i : Nat} (h : i < buckets.length) (x : α) :
    (buckets.modify i (· ++ [x])).flatten.Perm (x :: buckets.flatten) := by
  induction buckets generalizing i with
  | nil => simp at h
  | cons bucket buckets ih =>
      cases i with
      | zero =>
          simp only [List.modify_zero_cons, List.flatten_cons, List.append_assoc, List.singleton_append]
          exact List.perm_middle
      | succ i =>
          simp only [List.modify_succ_cons, List.flatten_cons]
          exact ((ih (by simpa using h)).append_left bucket).trans List.perm_middle

theorem flatten_distribute {α : Type} {index : α → Nat} {items : List α} {buckets : List (List α)}
    (h : ∀ item ∈ items, index item < buckets.length) :
    (distribute index items buckets).flatten.Perm (items ++ buckets.flatten) := by
  induction items generalizing buckets with
  | nil => exact List.Perm.refl _
  | cons item items ih =>
      show (distribute index items (buckets.modify (index item) (· ++ [item]))).flatten.Perm _
      refine (ih (fun x hx => ?_)).trans ?_
      · simpa using h x (List.mem_cons_of_mem _ hx)
      · exact ((flatten_modify (h item List.mem_cons_self) item).append_left items).trans List.perm_middle

/-- The batches that are left when the empty ones are dropped and the others are sorted. -/
theorem flatten_sorted (batches : List (List String)) :
    ((batches.filter (· ≠ [])).map fun batch => batch.insertionSort (· ≤ ·)).flatten.Perm batches.flatten := by
  induction batches with
  | nil => exact List.Perm.refl _
  | cons batch batches ih =>
      by_cases h : batch = []
      · simpa [h] using ih
      · simpa [h] using (List.perm_insertionSort (· ≤ ·) batch).append ih

theorem sorted_ne_nil {batches : List (List String)} {batch : List String}
    (h : batch ∈ (batches.filter (· ≠ [])).map fun batch => batch.insertionSort (· ≤ ·)) : batch ≠ [] := by
  obtain ⟨unsorted, hmem, rfl⟩ := List.mem_map.mp h
  have hne : unsorted ≠ [] := of_decide_eq_true (List.mem_filter.mp hmem).2
  exact fun hnil => hne (List.length_eq_zero_iff.mp (by simpa using congrArg List.length hnil))

section Batched

variable {W : Type} [Add W] [Zero W] {lighter : W → W → Bool} {weight : String → W} {targets batch : List String}
  {maxBatches : Int}

theorem stableTargetShards_perm (sha256 : List Char → List (Fin 256)) (hnodup : targets.Nodup) :
    (stableTargetShards sha256 targets maxBatches).flatten.Perm targets := by
  have hunique : (uniqueTargets targets).Perm targets := by
    simpa [uniqueTargets, hnodup.dedup] using List.perm_insertionSort (· ≤ ·) targets
  refine (flatten_sorted _).trans ((flatten_distribute fun target hmem => ?_).trans ?_)
  · have hpos : 0 < shardCount (uniqueTargets targets).length maxBatches := by
      have := List.length_pos_of_mem hmem
      unfold shardCount
      omega
    simpa using Nat.mod_lt _ hpos
  · simpa using hunique

omit [Add W] in
theorem lightest_lt {weights : List W} (h : weights ≠ []) : lightest lighter weights < weights.length := by
  have hrun : ∀ indices : List Nat, (∀ i ∈ indices, i < weights.length) → ∀ best < weights.length,
      indices.foldl (fun best i => if lighter (weights.getD i 0) (weights.getD best 0) = true then i else best) best <
        weights.length := by
    intro indices
    induction indices with
    | nil => exact fun _ best hbest => hbest
    | cons i indices ih =>
        intro hall best hbest
        apply ih fun j hj => hall j (List.mem_cons_of_mem _ hj)
        dsimp only
        split
        · exact hall i List.mem_cons_self
        · exact hbest
  exact hrun _ (fun i hi => List.mem_range.mp hi) 0 (List.length_pos_iff.mpr h)

theorem addWeighted_perm {weighted : List (W × String)} {batches : List (List String)} {weights : List W}
    (hlength : batches.length = weights.length) (hne : weights ≠ []) :
    (weighted.foldl (addWeighted lighter) (batches, weights)).1.flatten.Perm
      (weighted.map Prod.snd ++ batches.flatten) := by
  induction weighted generalizing batches weights with
  | nil => exact List.Perm.refl _
  | cons target weighted ih =>
      have hlt : lightest lighter weights < batches.length := hlength ▸ lightest_lt hne
      have hmore : weights.modify (lightest lighter weights) (· + target.1) ≠ [] := fun hnil =>
        hne (List.length_eq_zero_iff.mp (by simpa using congrArg List.length hnil))
      refine (ih (by simpa using hlength) hmore).trans ?_
      exact ((flatten_modify hlt target.2).append_left _).trans List.perm_middle

theorem balancedTargetBatches_perm (hnodup : targets.Nodup) :
    (balancedTargetBatches lighter weight targets maxBatches).flatten.Perm targets := by
  have hunique : fromKeys targets = targets := by
    simp [fromKeys, (List.nodup_reverse.mpr hnodup).dedup]
  unfold balancedTargetBatches
  rw [hunique]
  by_cases hnil : targets = []
  · simp [hnil]
  · by_cases hall : shardCount targets.length maxBatches = targets.length
    · simp only [hnil, hall, if_false, if_true]
      rw [← List.flatMap_def, List.flatMap_singleton']
    · simp only [hnil, hall, if_false]
      have hpos : 0 < shardCount targets.length maxBatches := by
        have := List.length_pos_iff.mpr hnil
        unfold shardCount
        omega
      refine (flatten_sorted _).trans ((addWeighted_perm (by simp) ?_).trans ?_)
      · simpa using hpos.ne'
      · simpa [Function.comp_def] using (List.perm_insertionSort (heavierFirst lighter)
          (targets.map fun target => (weight target, target))).map Prod.snd

theorem balancedTargetBatches_ne_nil (h : batch ∈ balancedTargetBatches lighter weight targets maxBatches) :
    batch ≠ [] := by
  unfold balancedTargetBatches at h
  dsimp only at h
  split at h
  · simp at h
  · split at h
    · obtain ⟨target, _, rfl⟩ := List.mem_map.mp h
      exact List.cons_ne_nil _ _
    · exact sorted_ne_nil h

end Batched

/-! ### What is found -/

section Found

variable {files : List String → String → List String} {filesOf : String → List String} {found : Found} {x : String}

theorem seen_iff : found.seen x = true ↔ x ∈ found.discovered ∨ x ∈ found.fallback := by simp [Found.seen]

/-- Nothing is found twice. -/
def Found.Once (found : Found) : Prop := (found.fallback ++ found.discovered).Nodup

theorem addFile_once (h : found.Once) (file : String) : (found.addFile file).Once := by
  unfold Found.addFile
  split
  · exact h
  · rename_i hseen
    rw [seen_iff, not_or] at hseen
    show (found.fallback ++ (found.discovered ++ [file])).Nodup
    rw [← List.append_assoc]
    refine List.Nodup.append h (List.nodup_singleton file) ?_
    simp [hseen]

theorem addTarget_once (h : found.Once) (target : String) : (found.addTarget filesOf target).Once := by
  unfold Found.addTarget
  split
  · split
    · exact h
    · rename_i hseen
      rw [seen_iff, not_or] at hseen
      show ((found.fallback ++ [target]) ++ found.discovered).Nodup
      rw [List.append_assoc]
      refine (List.perm_middle.nodup_iff).mpr (List.nodup_cons.mpr ⟨?_, h⟩)
      simp [hseen]
  · exact List.foldlRecOn (filesOf target) Found.addFile h fun found h file _ => addFile_once h file

theorem addFile_seen (file : String) : (found.addFile file).seen x = true ↔ found.seen x = true ∨ x = file := by
  unfold Found.addFile
  split
  · rename_i hseen
    constructor
    · exact .inl
    · rintro (h | rfl)
      · exact h
      · exact hseen
  · simp only [seen_iff, List.mem_append, List.mem_singleton]
    tauto

theorem addFiles_seen (more : List String) :
    (more.foldl Found.addFile found).seen x = true ↔ found.seen x = true ∨ x ∈ more := by
  induction more generalizing found with
  | nil => simp
  | cons file more ih =>
      rw [List.foldl_cons, ih, addFile_seen, List.mem_cons]
      tauto

theorem addTarget_seen (target : String) : (found.addTarget filesOf target).seen x = true ↔
    found.seen x = true ∨ x ∈ filesOf target ∨ (filesOf target = [] ∧ x = target) := by
  unfold Found.addTarget
  by_cases hfiles : filesOf target = []
  · simp only [hfiles, if_true, List.not_mem_nil, false_or, true_and]
    split
    · rename_i hseen
      constructor
      · exact .inl
      · rintro (h | rfl)
        · exact h
        · exact hseen
    · simp only [seen_iff, List.mem_append, List.mem_singleton]
      tauto
  · simp only [hfiles, if_false, addFiles_seen, false_and, or_false]

theorem addTargets_seen (targets : List String) : (targets.foldl (Found.addTarget filesOf) found).seen x = true ↔
    found.seen x = true ∨ ∃ target ∈ targets, x ∈ filesOf target ∨ (filesOf target = [] ∧ x = target) := by
  induction targets generalizing found with
  | nil => simp
  | cons target targets ih =>
      rw [List.foldl_cons, ih, addTarget_seen]
      simp only [List.mem_cons, exists_eq_or_imp]
      exact or_assoc

end Found

section Produced

variable {W : Type} {project : Discovery W} {step : VerificationStep}

/-- The test files in a target of the step that are not left out. -/
def filesOf (project : Discovery W) (step : VerificationStep) : String → List String :=
  project.pytestFiles (pytestExcludePatterns step.args).1

theorem foundTargets_once : (foundTargets project step).Once :=
  List.foldlRecOn _ _ (by simp [Found.Once]) fun _ h target _ => addTarget_once h target

theorem foundTargets_seen {x : String} : (foundTargets project step).seen x = true ↔
    ∃ target ∈ rawTargets step, x ∈ filesOf project step target ∨ (filesOf project step target = [] ∧ x = target) := by
  show ((rawTargets step).foldl (Found.addTarget (filesOf project step)) {}).seen x = true ↔ _
  rw [addTargets_seen]
  simp [Found.seen]

theorem rawTargets_ne_nil : rawTargets step ≠ [] := by
  unfold rawTargets
  dsimp only
  split
  · exact List.cons_ne_nil _ _
  · assumption

@[simp] theorem expandedProofStep_targets (sha256 : List Char → List (Fin 256)) (targets args : List String) :
    (expandedProofStep sha256 step targets args).targets = targets := rfl

variable [Add W] [Zero W] {limit : Int} {stable : Bool}

theorem targetBatches_perm :
    (targetBatches project step limit stable).flatten.Perm (foundTargets project step).discovered := by
  have hnodup : (foundTargets project step).discovered.Nodup := (List.nodup_append.mp foundTargets_once).2.1
  unfold targetBatches
  dsimp only
  split
  · exact stableTargetShards_perm project.sha256 hnodup
  · exact balancedTargetBatches_perm hnodup

theorem targetBatches_ne_nil {batch : List String} (h : batch ∈ targetBatches project step limit stable) : batch ≠ [] := by
  unfold targetBatches at h
  dsimp only at h
  split at h
  · exact sorted_ne_nil h
  · exact balancedTargetBatches_ne_nil h

/-- The targets of the steps that are made of a step are what was found. -/
theorem expandStep_targets (hsplit : isSplit step stable = true) :
    ((expandStep project limit stable step).flatMap (·.targets)).Perm
      ((foundTargets project step).fallback ++ (foundTargets project step).discovered) := by
  unfold expandStep
  rw [if_pos hsplit, List.flatMap_append, List.flatMap_map, List.flatMap_map]
  simp only [expandedProofStep_targets, List.flatMap_singleton']
  rw [List.flatMap_id']
  exact targetBatches_perm.append_left _

/-- Every file that is discovered for a step is in one of the steps made of it, once, every target in which nothing is
discovered is kept once, and no step is made without targets. -/
structure Partitioned (project : Discovery W) (step : VerificationStep) (produced : Steps) : Prop where
  once : ∀ target ∈ rawTargets step, ∀ file ∈ filesOf project step target,
    (produced.flatMap (·.targets)).count file = 1
  kept : ∀ target ∈ rawTargets step, filesOf project step target = [] → (produced.flatMap (·.targets)).count target = 1
  only : ∀ x ∈ produced.flatMap (·.targets),
    ∃ target ∈ rawTargets step, x ∈ filesOf project step target ∨ (filesOf project step target = [] ∧ x = target)
  nonempty : ∀ made ∈ produced, made.targets ≠ []

theorem expandStep_partitioned (hsplit : isSplit step stable = true) :
    Partitioned project step (expandStep project limit stable step) := by
  have hperm : ((expandStep project limit stable step).flatMap (·.targets)).Perm
      ((foundTargets project step).fallback ++ (foundTargets project step).discovered) := expandStep_targets hsplit
  have hnodup : ((expandStep project limit stable step).flatMap (·.targets)).Nodup :=
    hperm.nodup_iff.mpr foundTargets_once
  have hmem : ∀ x, x ∈ (expandStep project limit stable step).flatMap (·.targets) ↔
      (foundTargets project step).seen x = true := by
    intro x
    rw [hperm.mem_iff, List.mem_append, seen_iff]
    exact or_comm
  refine ⟨?_, ?_, ?_, ?_⟩
  · intro target htarget file hfile
    exact List.count_eq_one_of_mem hnodup ((hmem file).mpr (foundTargets_seen.mpr ⟨target, htarget, .inl hfile⟩))
  · intro target htarget hnone
    exact List.count_eq_one_of_mem hnodup
      ((hmem target).mpr (foundTargets_seen.mpr ⟨target, htarget, .inr ⟨hnone, rfl⟩⟩))
  · intro x hx
    exact foundTargets_seen.mp ((hmem x).mp hx)
  · intro made hmade
    unfold expandStep at hmade
    rw [if_pos hsplit] at hmade
    rcases List.mem_append.mp hmade with h | h
    · obtain ⟨target, _, rfl⟩ := List.mem_map.mp h
      exact List.cons_ne_nil _ _
    · obtain ⟨batch, hbatch, rfl⟩ := List.mem_map.mp h
      exact targetBatches_ne_nil hbatch

theorem expandStep_ne_nil : expandStep project limit stable step ≠ [] := by
  by_cases hsplit : isSplit step stable = true
  · have hraw : rawTargets step ≠ [] := rawTargets_ne_nil
    obtain ⟨target, htarget⟩ := List.exists_mem_of_ne_nil _ hraw
    have hparts : Partitioned project step (expandStep project limit stable step) := expandStep_partitioned hsplit
    intro hnil
    cases hfiles : filesOf project step target with
    | nil => simpa [hnil] using hparts.kept target htarget hfiles
    | cons file files =>
        simpa [hnil] using hparts.once target htarget file (by rw [hfiles]; exact List.mem_cons_self)
  · unfold expandStep
    rw [if_neg hsplit]
    exact List.cons_ne_nil _ _

end Produced

/-! ### Names of proofs -/

section Names

variable {sha256 : List Char → List (Fin 256)} {step : VerificationStep} {targets args : List String}

theorem hexDigit_ne_dot {n : Nat} (h : n < 16) : hexDigit n ≠ '.' := by
  revert n
  decide

theorem suffix_no_dot : '.' ∉ suffix sha256 targets args := by
  intro h
  obtain ⟨byte, _, hbyte⟩ := List.mem_flatMap.mp (List.mem_of_mem_take h)
  have hlt := byte.isLt
  rcases List.mem_cons.mp hbyte with heq | hlow
  · exact hexDigit_ne_dot (by omega) heq.symm
  · exact hexDigit_ne_dot (by omega) (List.mem_singleton.mp hlow).symm

/-- The proof of a step that is made of another is named as that one, or as one of its shards. -/
inductive Named (source : String) : String → Prop
  | same : Named source source
  | shard (hash : List Char) : source ≠ "" → '.' ∉ hash → Named source (source ++ ".shard-" ++ String.ofList hash)

theorem expandedProofStep_named : Named step.proofId (expandedProofStep sha256 step targets args).proofId := by
  unfold expandedProofStep
  dsimp only
  split
  · rename_i hfilled
    exact .shard _ hfilled.1 suffix_no_dot
  · exact .same

theorem expandStep_named {W : Type} [Add W] [Zero W] {project : Discovery W} {limit : Int} {stable : Bool}
    {made : VerificationStep} (h : made ∈ expandStep project limit stable step) : Named step.proofId made.proofId := by
  unfold expandStep at h
  split at h
  · rcases List.mem_append.mp h with h | h
    · obtain ⟨target, _, rfl⟩ := List.mem_map.mp h
      exact expandedProofStep_named
    · obtain ⟨batch, _, rfl⟩ := List.mem_map.mp h
      exact expandedProofStep_named
  · rw [List.mem_singleton.mp h]
    exact .same

theorem startsWith_iff {start text : String} : startsWith start text = true ↔ start.toList <+: text.toList :=
  List.isPrefixOf_iff_prefix

/-- One proof id is another with a part that the names of shards, or of what remains, begin with. -/
def Extends (source id : String) : Prop :=
  startsWith (source ++ ".shard-") id = true ∨ startsWith (source ++ ".remaining-") id = true

instance (source id : String) : Decidable (Extends source id) := inferInstanceAs (Decidable (_ ∨ _))

theorem descends_iff {source id : String} : descends source id = true ↔ id = source ∨ Extends source id := by
  simp [descends, Extends, or_assoc]

theorem Named.descends {source id : String} (h : Named source id) : descends source id = true := by
  rw [descends_iff]
  cases h with
  | same => exact .inl rfl
  | shard hash _ _ =>
      refine .inr (.inl (startsWith_iff.mpr ⟨hash, ?_⟩))
      simp

theorem Named.of_ne {source id : String} (h : Named source id) (hne : id ≠ source) : source ≠ "" ∧ Extends source id := by
  cases h with
  | same => exact absurd rfl hne
  | shard hash hsource _ => exact ⟨hsource, .inl (startsWith_iff.mpr ⟨hash, by simp⟩)⟩

theorem Named.extends {source other id : String} (h : Named source id) (hextends : Extends other source) :
    Extends other id := by
  have hbegins : source.toList <+: id.toList := by
    cases h with
    | same => exact List.prefix_refl _
    | shard hash _ _ => exact ⟨".shard-".toList ++ hash, by simp⟩
  rcases hextends with hstart | hstart
  · exact .inl (startsWith_iff.mpr ((startsWith_iff.mp hstart).trans hbegins))
  · exact .inr (startsWith_iff.mpr ((startsWith_iff.mp hstart).trans hbegins))

/-- Of two texts that are cut at a dot, of which the second part of the one has no dot. -/
theorem cut_at_dot {a b v w : List Char} (h : a ++ '.' :: v = b ++ '.' :: w) (hv : '.' ∉ v) :
    (a = b ∧ v = w) ∨ ∃ u, a = b ++ '.' :: u ∧ w = u ++ '.' :: v := by
  rcases List.append_eq_append_iff.mp h with ⟨u, hb, hrest⟩ | ⟨u, ha, hrest⟩
  · cases u with
    | nil => exact .inl ⟨by simpa using hb.symm, by simpa using hrest⟩
    | cons c u =>
        have hmem : '.' ∈ v := by
          rw [(List.cons.inj hrest).2]
          exact List.mem_append_right u List.mem_cons_self
        exact absurd hmem hv
  · cases u with
    | nil => exact .inl ⟨by simpa using ha, by simpa using hrest.symm⟩
    | cons c u =>
        obtain ⟨rfl, hw⟩ := List.cons.inj hrest
        exact .inr ⟨u, ha, hw⟩

/-- What begins with a word without dots and a dash, and goes on to a dot, has the word before the dot. -/
theorem word_before_dot {word u rest v : List Char} (hword : '.' ∉ word) (h : word ++ rest = u ++ '.' :: v) :
    word <+: u := by
  rcases List.append_eq_append_iff.mp h with ⟨more, hu, _⟩ | ⟨more, hw, hrest⟩
  · exact ⟨more, hu.symm⟩
  · cases more with
    | nil => exact ⟨[], by simpa using hw⟩
    | cons c more =>
        obtain ⟨rfl, _⟩ := List.cons.inj hrest
        exact absurd (hw ▸ List.mem_append_right u List.mem_cons_self) hword

/-- What is named as a shard of one proof extends another only where the first proof does. -/
theorem Named.of_extends {source other id : String} (h : Named source id) (hextends : Extends other id)
    (hne : other ≠ source) : Extends other source := by
  cases h with
  | same => exact hextends
  | shard hash _ hhash =>
      have hword : ∀ word : List Char, '.' ∉ word →
          other.toList ++ '.' :: word <+: source.toList ++ '.' :: ("shard-".toList ++ hash) →
            other.toList ++ '.' :: word <+: source.toList := by
        rintro word hdot ⟨rest, hrest⟩
        have hall : source.toList ++ '.' :: ("shard-".toList ++ hash) = other.toList ++ '.' :: (word ++ rest) := by
          simpa using hrest.symm
        have hv : '.' ∉ "shard-".toList ++ hash := by
          rw [List.mem_append, not_or]
          exact ⟨by decide, hhash⟩
        rcases cut_at_dot hall hv with ⟨hsame, _⟩ | ⟨u, hu, hw⟩
        · exact absurd (String.toList_inj.mp hsame.symm) hne
        · obtain ⟨more, hmore⟩ := word_before_dot hdot hw
          exact ⟨more, by rw [hu, ← hmore]; simp⟩
      rcases hextends with hstart | hstart
      · refine .inl (startsWith_iff.mpr ?_)
        have hthis := hword "shard-".toList (by decide) (by simpa using startsWith_iff.mp hstart)
        simpa using hthis
      · refine .inr (startsWith_iff.mpr ?_)
        have hthis := hword "remaining-".toList (by decide) (by simpa using startsWith_iff.mp hstart)
        simpa using hthis

end Names

/-! ### What references name -/

section References

theorem mem_extendNew {texts more : List String} {x : String} : x ∈ extendNew texts more ↔ x ∈ texts ∨ x ∈ more := by
  induction more generalizing texts with
  | nil => simp [extendNew]
  | cons text more ih =>
      show x ∈ extendNew (if text ∈ texts then texts else texts ++ [text]) more ↔ _
      rw [ih, List.mem_cons]
      by_cases htext : text ∈ texts
      · rw [if_pos htext]
        constructor
        · rintro (h | h)
          · exact .inl h
          · exact .inr (.inr h)
        · rintro (h | rfl | h)
          · exact .inl h
          · exact .inl htext
          · exact .inr h
      · simp [htext, or_assoc]

theorem mem_remapped {source expanded : Steps} {preserve : Bool} {ids : List String} {x : String} :
    x ∈ (remapExpandedProofIds source expanded ids preserve).1 ↔ ∃ id ∈ ids, x ∈ replacements source expanded preserve id := by
  have hfold : ∀ remapped : List String,
      x ∈ ids.foldl (fun remapped id => extendNew remapped (replacements source expanded preserve id)) remapped ↔
        x ∈ remapped ∨ ∃ id ∈ ids, x ∈ replacements source expanded preserve id := by
    induction ids with
    | nil => simp
    | cons id ids ih =>
        intro remapped
        rw [List.foldl_cons, ih, mem_extendNew]
        simp only [List.mem_cons, exists_eq_or_imp]
        exact or_assoc
  show x ∈ ids.foldl (fun remapped id => extendNew remapped (replacements source expanded preserve id)) [] ↔ _
  rw [hfold]
  simp

theorem mem_proofIds {steps : Steps} {id : String} : id ∈ proofIds steps ↔ id ≠ "" ∧ ∃ step ∈ steps, step.proofId = id := by
  simp [proofIds, and_comm]

end References

/-- The steps that are made of the steps of a list, and what references to them name: the files are partitioned, a
proof id of a step names the steps made of it and no step made of another, and a step waits for the steps made of those
it waited for, and for nothing else. -/
structure Attributed {W : Type} [Add W] [Zero W] (project : Discovery W) (limit : Int) (stable : Bool) (steps : Steps) :
    Prop where
  split : ∀ step ∈ steps, isSplit step stable = true → Partitioned project step (expandStep project limit stable step)
  whole : ∀ step ∈ steps, isSplit step stable = false → expandStep project limit stable step = [step]
  ids : ∀ step ∈ steps, step.proofId ≠ "" → ∀ id,
    id ∈ (remapExpandedProofIds steps (expandPytestDirectorySteps project limit stable steps) [step.proofId]).1 ↔
      ∃ made ∈ expandStep project limit stable step, made.proofId = id
  others : ∀ step ∈ steps, ∀ other ∈ steps, step.proofId ≠ "" → other.proofId ≠ step.proofId →
    ∀ made ∈ expandStep project limit stable other,
      made.proofId ∉ (remapExpandedProofIds steps (expandPytestDirectorySteps project limit stable steps) [step.proofId]).1
  dependencies : ∀ made ∈ expandPytestDirectorySteps project limit stable steps,
    (∀ id ∈ made.dependsOnProofs, id ∈ proofIds steps) →
      ∃ remapped ∈ remapExpandedProofDependencies steps (expandPytestDirectorySteps project limit stable steps),
        remapped = { made with dependsOnProofs := remapped.dependsOnProofs } ∧
        ∀ id, id ∈ remapped.dependsOnProofs ↔ ∃ step ∈ steps, step.proofId ∈ made.dependsOnProofs ∧
          ∃ shard ∈ expandStep project limit stable step, shard.proofId = id

section Attributed

variable {W : Type} [Add W] [Zero W] {project : Discovery W} {limit : Int} {stable : Bool} {steps : Steps}
  {step other made : VerificationStep}

theorem Extends.filled {source id : String} (h : Extends source id) : id ≠ "" := by
  rintro rfl
  rcases h with hstart | hstart
  · simpa using (startsWith_iff.mp hstart).length_le
  · simpa using (startsWith_iff.mp hstart).length_le

theorem not_extends_self (id : String) : ¬ Extends id id := by
  rintro (hstart | hstart)
  · simpa using (startsWith_iff.mp hstart).length_le
  · simpa using (startsWith_iff.mp hstart).length_le

theorem owner_unique (hnodup : (proofIds steps).Nodup) (hstep : step ∈ steps) (hother : other ∈ steps)
    (hfilled : step.proofId ≠ "") (h : other.proofId = step.proofId) : other = step := by
  have hmap : ((steps.filter fun step => step.proofId ≠ "").map (·.proofId)).Nodup := by
    simpa [proofIds, List.filter_map, Function.comp_def] using hnodup
  apply List.inj_on_of_nodup_map hmap
  · exact List.mem_filter.mpr ⟨hother, by simpa [h] using hfilled⟩
  · exact List.mem_filter.mpr ⟨hstep, by simpa using hfilled⟩
  · exact h

theorem mem_expanded : made ∈ expandPytestDirectorySteps project limit stable steps ↔
    ∃ step ∈ steps, made ∈ expandStep project limit stable step := List.mem_flatMap

/-- A proof id of a step names what descends from it. -/
theorem mem_replacements {expanded : Steps} {preserve : Bool} {id : String} (hstep : step ∈ steps)
    (hfilled : step.proofId ≠ "") :
    id ∈ replacements steps expanded preserve step.proofId ↔
      id ≠ "" ∧ (∃ made ∈ expanded, made.proofId = id) ∧ (id = step.proofId ∨ Extends step.proofId id) := by
  have hsource : step.proofId ∈ proofIds steps := mem_proofIds.mpr ⟨hfilled, step, hstep, rfl⟩
  rw [replacements, if_pos hsource, List.mem_filter, mem_proofIds, descends_iff, and_assoc]

theorem named_filled {source id : String} (h : Named source id) (hfilled : source ≠ "") : id ≠ "" := by
  have hdescends := h.descends
  rcases descends_iff.mp hdescends with rfl | hextends
  · exact hfilled
  · exact hextends.filled

/-- Where no proof id extends another, the proof id of a step names the steps that are made of it. -/
theorem replacements_own (hnodup : (proofIds steps).Nodup)
    (hclear : ∀ step ∈ steps, ∀ other ∈ steps, step.proofId ≠ "" → ¬ Extends step.proofId other.proofId)
    {preserve : Bool} {id : String} (hstep : step ∈ steps) (hfilled : step.proofId ≠ "") :
    id ∈ replacements steps (expandPytestDirectorySteps project limit stable steps) preserve step.proofId ↔
      ∃ made ∈ expandStep project limit stable step, made.proofId = id := by
  rw [mem_replacements hstep hfilled]
  constructor
  · rintro ⟨_, ⟨made, hmade, rfl⟩, hid⟩
    obtain ⟨other, hother, hmade⟩ := mem_expanded.mp hmade
    have hnamed := expandStep_named hmade
    have hsame : other.proofId = step.proofId := by
      by_contra hne
      rcases hid with heq | hextends
      · rw [heq] at hnamed
        obtain ⟨hsource, hextends⟩ := hnamed.of_ne (Ne.symm hne)
        exact hclear other hother step hstep hsource hextends
      · exact hclear step hstep other hother hfilled (hnamed.of_extends hextends (Ne.symm hne))
    rw [owner_unique hnodup hstep hother hfilled hsame] at hmade
    exact ⟨made, hmade, rfl⟩
  · rintro ⟨made, hmade, rfl⟩
    have hnamed := expandStep_named hmade
    exact ⟨named_filled hnamed hfilled, ⟨made, mem_expanded.mpr ⟨step, hstep, hmade⟩, rfl⟩, descends_iff.mp hnamed.descends⟩

theorem mem_remapped_own {expanded : Steps} {id : String} :
    id ∈ (remapExpandedProofIds steps expanded [step.proofId]).1 ↔ id ∈ replacements steps expanded true step.proofId := by
  rw [mem_remapped]
  simp

end Attributed

/-- The files are partitioned and references name what was made of their steps if and only if no proof id of a step is
another with a part that the names of shards, or of what remains, begin with. -/
theorem expansion_attributed {W : Type} [Add W] [Zero W] (project : Discovery W) (limit : Int) (stable : Bool) (steps : Steps)
    (hnodup : (proofIds steps).Nodup) :
    Attributed project limit stable steps ↔
      ∀ step ∈ steps, ∀ other ∈ steps, step.proofId ≠ "" → ¬ Extends step.proofId other.proofId := by
  constructor
  · intro h step hstep other hother hfilled hextends
    have hne : other.proofId ≠ step.proofId := fun heq => not_extends_self step.proofId (heq ▸ hextends)
    have hsome : expandStep project limit stable other ≠ [] := expandStep_ne_nil
    obtain ⟨made, hmade⟩ := List.exists_mem_of_ne_nil _ hsome
    have hmore := (expandStep_named hmade).extends hextends
    refine h.others step hstep other hother hfilled hne made hmade (mem_remapped_own.mpr ?_)
    exact (mem_replacements hstep hfilled).mpr
      ⟨hmore.filled, ⟨made, mem_expanded.mpr ⟨other, hother, hmade⟩, rfl⟩, .inr hmore⟩
  · intro hclear
    refine ⟨fun step _ hsplit => expandStep_partitioned hsplit, ?_, ?_, ?_, ?_⟩
    · intro step _ hsplit
      unfold expandStep
      rw [if_neg (by simp [hsplit])]
    · intro step hstep hfilled id
      rw [mem_remapped_own, replacements_own hnodup hclear hstep hfilled]
    · intro step hstep other hother hfilled hne made hmade hmem
      rw [mem_remapped_own, mem_replacements hstep hfilled] at hmem
      have hnamed := expandStep_named hmade
      rcases hmem.2.2 with heq | hextends
      · rw [heq] at hnamed
        obtain ⟨hsource, hextends⟩ := hnamed.of_ne (Ne.symm hne)
        exact hclear other hother step hstep hsource hextends
      · exact hclear step hstep other hother hfilled (hnamed.of_extends hextends (Ne.symm hne))
    · intro made hmade hsources
      refine ⟨_, List.mem_map_of_mem hmade, rfl, fun id => ?_⟩
      show id ∈ (remapExpandedProofIds steps _ made.dependsOnProofs).1 ↔ _
      rw [mem_remapped]
      constructor
      · rintro ⟨source, hsource, hid⟩
        obtain ⟨hfilled, step, hstep, rfl⟩ := mem_proofIds.mp (hsources source hsource)
        exact ⟨step, hstep, hsource, (replacements_own hnodup hclear hstep hfilled).mp hid⟩
      · rintro ⟨step, hstep, hsource, hshard⟩
        have hfilled : step.proofId ≠ "" := (mem_proofIds.mp (hsources _ hsource)).1
        exact ⟨step.proofId, hsource, (replacements_own hnodup hclear hstep hfilled).mpr hshard⟩

/-! ### Two steps -/

/-- A project in which no directory has test files. -/
def filesOnly : Discovery Nat where
  sha256 := recorded
  pytestFiles _ _ := []
  weight _ _ _ _ := 1
  lighter a b := decide (a < b)

def unitSteps (second : String) : Steps :=
  [{ proofId := "unit", runner := "pytest", targets := ["tests/test_unit.py"] },
    { proofId := second, runner := "pytest", targets := ["tests/test_more.py"], dependsOnProofs := ["unit"] }]

theorem expansion_attributed_apart : Attributed filesOnly 8 true (unitSteps "more") :=
  (expansion_attributed filesOnly 8 true (unitSteps "more") (by decide)).mpr (by decide +kernel)

/-- The second step is not made of the first; the first step's proof id names it, and the second waits for itself. -/
theorem shard_claimed :
    (proofIds (unitSteps "unit.shard-more")).Nodup ∧
      (remapExpandedProofIds (unitSteps "unit.shard-more")
          (expandPytestDirectorySteps filesOnly 8 true (unitSteps "unit.shard-more")) ["unit"]).1 =
        ["unit", "unit.shard-more"] ∧
      ((unitSteps "unit.shard-more").map fun step => (expandStep filesOnly 8 true step).map (·.proofId)) =
        [["unit"], ["unit.shard-more"]] ∧
      (remapExpandedProofDependencies (unitSteps "unit.shard-more")
          (expandPytestDirectorySteps filesOnly 8 true (unitSteps "unit.shard-more"))).map (·.dependsOnProofs) =
        [[], ["unit", "unit.shard-more"]] := by
  decide +kernel

end AutoAgents.Verification.Sharding
