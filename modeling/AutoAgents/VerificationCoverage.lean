import AutoAgents.VerificationMonotone
import AutoAgents.VerificationRelease

/-! What the checks of a release cover. Under the optimized policy every step of either level has its own command among
them; before it, what the affected level runs as a whole file is left out, and its selectors are deselected. -/

namespace AutoAgents.Verification

open Base

variable {env : Environment} {project : Project} {steps : Steps} {gates : GateConfig} {step : VerificationStep}
  {changed : List String} {command : Command} {target : String}

/-! ### Commands -/

/-- A target as a command has it. -/
def strippedText (text : String) : String := String.ofList (Operator.strip text.toList)

theorem mem_stripped {items : List String} {text : String} (h : text ∈ items) (hne : strippedText text ≠ "") :
    strippedText text ∈ stripped items := by
  unfold stripped
  refine List.mem_filter.mpr ⟨List.mem_map_of_mem h, ?_⟩
  simpa using hne

/-- The names that are kept for the file of a target. -/
def PairsName (paired : List (String × List String)) (target : String) : Prop :=
  ∃ names, paired.lookup (String.ofList (beforeColons target.toList)) = some names ∧
    String.ofList ((afterColons target.toList).getD []) ∈ names

theorem foldl_pairsName {targets : List String} {paired : List (String × List String)}
    (h : PairsName paired target ∨ target ∈ targets) :
    PairsName (targets.foldl (fun paired target =>
      let path := String.ofList (beforeColons target.toList)
      let name := String.ofList ((afterColons target.toList).getD [])
      setField paired path ((paired.lookup path).getD [] ++ [name])) paired) target := by
  induction targets generalizing paired with
  | nil => exact h.resolve_right List.not_mem_nil
  | cons first rest ih =>
      rw [List.foldl_cons]
      apply ih
      simp only
      rcases h with ⟨names, hlookup, hname⟩ | hmem
      · -- the names of a file only grow
        left
        by_cases hpath : String.ofList (beforeColons target.toList) = String.ofList (beforeColons first.toList)
        · refine ⟨_, by rw [hpath, lookup_setField_self], ?_⟩
          rw [← hpath, hlookup]
          exact List.mem_append_left _ hname
        · exact ⟨names, by rw [lookup_setField_ne _ hpath, hlookup], hname⟩
      · rcases List.mem_cons.mp hmem with rfl | hrest
        · exact .inl ⟨_, lookup_setField_self _, List.mem_append_right _ List.mem_cons_self⟩
        · exact .inr hrest

/-- Every target that is given is run. -/
theorem command_runs (h : commandFromVerificationStep env step = .ok command) (htarget : target ∈ stripped step.targets) :
    command.Runs target := by
  unfold commandFromVerificationStep at h
  simp only at h
  generalize (if stripLower step.kind = "" then "test" else stripLower step.kind) = kind at h
  split at h
  · obtain rfl := Except.ok.inj h
    exact htarget
  · split at h
    · obtain ⟨⟨filters, remaining⟩, -, h⟩ := bind_ok.mp h
      simp only at h
      split at h
      · obtain rfl := Except.ok.inj h
        exact htarget
      · split at h
        · obtain rfl := Except.ok.inj h
          obtain ⟨names, hlookup, hname⟩ : PairsName (pairedNames (stripped step.targets)) target := foldl_pairsName (.inr htarget)
          refine ⟨_, List.mem_map_of_mem (mem_of_lookup hlookup), .inr ⟨List.mem_cons_self, ?_⟩⟩
          by_cases hall : (names.all (· != "")) = true
          · -- then the target names a test
            refine .inr ?_
            simp only [hall, if_true]
            cases hafter : afterColons target.toList with
            | none =>
                rw [hafter] at hname
                exact absurd (List.all_eq_true.mp hall _ hname) (by decide)
            | some name =>
                rw [hafter] at hname
                exact ⟨name, rfl, hname⟩
          · left
            simp only [hall]
            rfl
        · obtain rfl := Except.ok.inj h
          exact ⟨_, List.mem_cons_self, .inl htarget⟩
    · cases h

theorem compileStep_command {check : Check} (h : compileStep env step = .ok check) :
    commandFromVerificationStep env step = .ok check.command := by
  unfold compileStep at h
  obtain ⟨command, hcommand, h⟩ := bind_ok.mp h
  obtain ⟨-, h⟩ := guard_ok.mp h
  obtain ⟨-, h⟩ := guard_ok.mp h
  obtain ⟨-, h⟩ := guard_ok.mp h
  obtain ⟨-, h⟩ := guard_ok.mp h
  obtain ⟨-, h⟩ := guard_ok.mp h
  obtain rfl := Except.ok.inj h
  exact hcommand

/-! ### The selection of a release -/

theorem readLevel_release : readLevel "release" = .ok .release := by decide +kernel

/-- A release selects its steps whatever has changed. -/
theorem select_release {paths : List String} {sel : Selection}
    (h : selectVerificationSteps project steps gates false { level := "release", changedPaths := paths } = .ok sel) :
    ∀ step ∈ releaseSelection project steps gates.optimized false, step ∈ sel.steps := by
  intro step hstep
  unfold selectVerificationSteps at h
  obtain ⟨requested, hrequested, h⟩ := bind_ok.mp h
  obtain rfl := Except.ok.inj (readLevel_release.symm.trans hrequested)
  obtain ⟨-, h⟩ := guard_ok.mp h
  obtain ⟨d, hd, h⟩ := bind_ok.mp h
  obtain ⟨passed, hpassed, h⟩ := bind_ok.mp h
  obtain ⟨⟨level, reason, last⟩, htriggered, h⟩ := bind_ok.mp h
  obtain ⟨⟨final, reasons⟩, hfinal, h⟩ := bind_ok.mp h
  obtain rfl := Except.ok.inj h
  have hdraft : d.level = .release ∧ d.selected = releaseSelection project steps gates.optimized false := by
    unfold draft at hd
    obtain rfl := Except.ok.inj hd
    exact ⟨rfl, rfl⟩
  rw [if_neg (by simp), hdraft.2] at hpassed
  have hpass : step ∈ passed := by
    obtain ⟨found, hfound, hmem⟩ := includeDependencies_mem hpassed
    have hfuel := @List.countP_le_length _ (fun proofId => !((extendMissing (releaseSelection project steps gates.optimized false)
      ((fromKeys []).filterMap fun proofId => (indexed steps).lookup proofId)).map (·.proofId)).contains proofId)
      ((indexed steps).map Prod.fst)
    rw [List.length_map] at hfuel
    have hle := Nat.add_le_add_left hfuel (extendMissing (releaseSelection project steps gates.optimized false)
      ((fromKeys []).filterMap fun proofId => (indexed steps).lookup proofId)).length
    exact (hmem step).mpr ((includeFrom_ok hle hfound).1 step (mem_extendMissing.mpr (.inl hstep)))
  have hlast : step ∈ last := by
    unfold triggered at htriggered
    rw [hdraft.1, if_neg (by simp)] at htriggered
    have heq := Except.ok.inj htriggered
    simp only [Prod.mk.injEq] at heq
    rwa [← heq.2.2]
  unfold withChangedTests at hfinal
  split at hfinal
  · refine foldlM_keeps (fun picked => step ∈ picked.1) ?_ hlast hfinal
    intro picked path picked' hpicked hturn
    unfold addChangedTest at hturn
    split at hturn
    · obtain rfl := Except.ok.inj hturn
      exact hpicked
    · cases htrusted : trustedRunner steps path with
      | error message =>
          rw [htrusted] at hturn
          cases hturn
      | ok owner =>
          rw [htrusted] at hturn
          obtain rfl := Except.ok.inj hturn
          exact List.mem_append_left _ hpicked
  · obtain ⟨rfl, -⟩ := Prod.mk.inj (Except.ok.inj hfinal)
    exact hlast

theorem configuredChecks_ok {compileText : String → Except String Check} {checks : List Check}
    (h : configuredChecks env compileText project steps gates changed = .ok checks) :
    ∀ step ∈ releaseSelection project steps gates.optimized false,
      ∃ check ∈ checks, commandFromVerificationStep env step = .ok check.command := by
  obtain ⟨sel, hsel, h⟩ := bind_ok.mp h
  obtain ⟨specs, hspecs, h⟩ := bind_ok.mp h
  obtain ⟨texts, -, h⟩ := bind_ok.mp h
  obtain rfl := Except.ok.inj h
  intro step hstep
  obtain ⟨check, hcheck, hcompiled⟩ := mapM_mem_of_mem hspecs step (select_release hsel step hstep)
  exact ⟨check, List.mem_append_left _ hcheck, compileStep_command hcompiled⟩

/-! ### Before the optimized policy -/

/-- The targets of a release step that no step of the affected level runs with their whole file. -/
def leftTargets (steps : Steps) (step : VerificationStep) : List String :=
  step.targets.filter fun target => !(coveredFiles steps).contains (targetFile target)

/-- The arguments of a release step, with the selectors of the affected level deselected where it runs pytest. -/
def leftArgs (steps : Steps) (step : VerificationStep) : List String :=
  if stripLower step.runner = "pytest" then deselecting steps (leftTargets steps step) step.args else step.args

theorem withoutOverlap_some (h : leftTargets steps step ≠ []) :
    ∃ left, withoutOverlap project steps step = some left ∧ left.targets = leftTargets steps step ∧
      commandFromVerificationStep env left =
        commandFromVerificationStep env { step with targets := leftTargets steps step, args := leftArgs steps step } := by
  have hunfold : withoutOverlap project steps step =
      if step.targets ≠ [] ∧ leftTargets steps step = [] then none
      else if leftTargets steps step = step.targets ∧ leftArgs steps step = step.args then some step
      else some (remaining project step (leftTargets steps step) (leftArgs steps step)) := rfl
  rw [hunfold, if_neg (fun hnone => h hnone.2)]
  split
  · next hsame =>
      obtain ⟨htargets, hargs⟩ := hsame
      have hstep : ({ step with targets := leftTargets steps step, args := leftArgs steps step } : VerificationStep) = step := by
        rw [hargs, htargets]
      exact ⟨step, rfl, htargets.symm, by rw [hstep]⟩
  · exact ⟨_, rfl, rfl, rfl⟩

/-! ### Verification -/

theorem verifierLoop_reports {execute : Check → Except String Bool} {specs : List Check} {reports reports' : List Report}
    (h : verifierLoop execute specs reports = .ok reports') :
    (∀ report ∈ reports, report ∈ reports') ∧
      ∀ spec ∈ specs, ∃ report ∈ reports', report.command = spec.command ∧ report.ok = true := by
  induction specs generalizing reports with
  | nil =>
      obtain rfl := Except.ok.inj h
      exact ⟨fun _ h => h, fun _ h => absurd h List.not_mem_nil⟩
  | cons spec rest ih =>
      obtain ⟨ok, -, h⟩ := bind_ok.mp h
      obtain ⟨hok, h⟩ := guard_ok.mp h
      obtain ⟨hold, hrest⟩ := ih h
      refine ⟨fun report hreport => hold report (List.mem_append_left _ hreport), fun other hother => ?_⟩
      rcases List.mem_cons.mp hother with rfl | hother
      · exact ⟨_, hold _ (List.mem_append_right _ List.mem_cons_self), rfl, by simpa using hok⟩
      · exact hrest other hother

def localEnvironment : Environment where
  localPython := true
  launchesKnown _ := true

/-- No commands are configured as texts. -/
def noTexts (_ : String) : Except String Check := .error "no command is configured"

/-- How many checks a release has. -/
def releaseSize (steps : Steps) (gates : GateConfig) : Option Nat :=
  (configuredChecks localEnvironment noTexts plainProject steps gates []).toOption.map List.length

example : releaseSize (serviceSteps "setup.proof") optimizedGates = some 2 := by decide +kernel

theorem releaseSize_some {n : Nat} (h : releaseSize steps gates = some n) :
    ∃ checks, configuredChecks localEnvironment noTexts plainProject steps gates [] = .ok checks ∧ checks.length = n := by
  unfold releaseSize at h
  cases hchecks : configuredChecks localEnvironment noTexts plainProject steps gates [] with
  | error message =>
      rw [hchecks] at h
      cases h
  | ok checks =>
      rw [hchecks] at h
      exact ⟨checks, rfl, Option.some.inj h⟩

/-- A step as it is configured without levels. -/
def unitSteps : Steps := [{ proofId := "unit", runner := "pytest", targets := ["tests/test_unit.py"] }]

end AutoAgents.Verification
